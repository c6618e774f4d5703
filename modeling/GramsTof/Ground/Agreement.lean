import GramsTof.Ground.Bridge

/-! What the bridge inserts for the packets of the flight encoders, against the
values that were encoded and those that the C++ decoders return. The flight
computer is little-endian. -/

namespace GramsTof.Ground

open Codec Lib Widening Telemetry

/-! ### Names -/

/-- A name that is ASCII and, unless it is empty, does not begin with a NUL. -/
def Plain (name : Name) : Prop :=
  (∀ b ∈ name.toList, b.toNat < 128) ∧ (name[0] = 0 → ∀ b ∈ name.toList, b = 0)

instance (name : Name) : Decidable (Plain name) := inferInstanceAs (Decidable (_ ∧ _))

/-- The text of a name, without the zeros that pad it. -/
def nameText (name : Name) : Text := asciiText (name.toList.rdropWhile fun b => b = 0)

theorem toNat_ofNat_byte (b : UInt8) : (Char.ofNat b.toNat).toNat = b.toNat := by
  have h := b.toNat_lt
  have hvalid : b.toNat.isValidChar := Or.inl (by omega)
  rw [Char.ofNat, dif_pos hvalid]
  rfl

theorem dropWhile_asciiText (bs : List UInt8) :
    (asciiText bs).dropWhile (fun c => c.toNat = 0) =
      asciiText (bs.dropWhile fun b => b = 0) := by
  have hp : ((fun c : Char => decide (c.toNat = 0)) ∘ fun b : UInt8 => Char.ofNat b.toNat) =
      fun b => decide (b = 0) := by
    funext b
    rw [Function.comp_apply, toNat_ofNat_byte, decide_eq_decide, ← UInt8.toNat_inj]
    rfl
  rw [asciiText, List.dropWhile_map, hp, asciiText]

theorem rdropWhile_asciiText (bs : List UInt8) :
    (asciiText bs).rdropWhile (fun c => c.toNat = 0) =
      asciiText (bs.rdropWhile fun b => b = 0) := by
  have hrev : (asciiText bs).reverse = asciiText bs.reverse := List.map_reverse.symm
  rw [List.rdropWhile, hrev, dropWhile_asciiText, List.rdropWhile, asciiText, ← List.map_reverse]
  rfl

theorem stripNul_name {name : Name} (h : Plain name) :
    stripNul (asciiText name.toList) = nameText name := by
  have hlen : name.toList.length = 16 := Vector.length_toList
  have hhead : name.toList.head? = some name[0] := by
    rw [List.head?_eq_getElem?, List.getElem?_eq_getElem (by omega), Vector.getElem_toList]
  rw [stripNul, dropWhile_asciiText, rdropWhile_asciiText, nameText]
  by_cases h0 : name[0] = 0
  · have hdrop : name.toList.dropWhile (fun b => decide (b = 0)) = [] :=
      List.dropWhile_eq_nil_iff.mpr fun b hb => decide_eq_true (h.2 h0 b hb)
    have hrdrop : name.toList.rdropWhile (fun b => decide (b = 0)) = [] :=
      List.rdropWhile_eq_nil_iff.mpr fun b hb => decide_eq_true (h.2 h0 b hb)
    rw [hdrop, hrdrop, List.rdropWhile_nil]
  · obtain ⟨b, bs, hcons⟩ := List.exists_cons_of_length_eq_add_one hlen
    rw [hcons, List.head?_cons, Option.some.injEq] at hhead
    rw [hcons, List.dropWhile_cons_of_neg (by simp [hhead, h0])]

/-- The name of a packet that carries it from the `i`-th argument on. -/
theorem decodeName_words {name : Name} (h : Plain name) :
    decodeName ((nameWords .little name).flatMap bytes32) = nameText name := by
  have hswap := swapGroups_flatMap (nameWords .little name)
  rw [length_nameWords, memory_nameWords] at hswap
  rw [decodeName, hswap, decodeUtf8_ascii h.1, stripNul_name h]

theorem decodeName_wire {p : Packet} {i : ℕ} {name : Name} {rest : List UInt32}
    (hname : p.argv.drop i = nameWords .little name ++ rest) (h : Plain name) :
    decodeName (slice (wire p) (8 + 4 * i) (8 + 4 * (i + 4))) = nameText name := by
  have hlen : (p.argv.drop i).length = 4 + rest.length := by
    rw [hname, List.length_append, length_nameWords]
  rw [List.length_drop] at hlen
  rw [slice_wire (by omega), hname, List.take_left' (length_nameWords _ _), decodeName_words h]

/-- The run number, the name and what follows them, of a packet of `GRAMS_TOF_MonitorCodec`. -/
theorem header_wire {p : Packet} {run : UInt32} {name : Name} {rest : List UInt32}
    (h : p.argv = run :: (nameWords .little name ++ rest)) (hname : Plain name) :
    unpackI (slice (wire p) 8 12) = some run ∧
      decodeName (slice (wire p) 12 28) = nameText name ∧
      ∀ i, p.argv.drop (5 + i) = rest.drop i := by
  have hdrop1 : p.argv.drop 1 = nameWords .little name ++ rest := by rw [h]; rfl
  refine ⟨unpackI_wire (i := 0) h, decodeName_wire (i := 1) hdrop1 hname, fun i => ?_⟩
  rw [show 5 + i = 1 + (4 + i) by omega, ← List.drop_drop, hdrop1, ← List.drop_drop,
    List.drop_left' (length_nameWords _ _)]

/-! ### Dispatch -/

theorem onMessage_wire (p : Packet) :
    onMessage (wire p) =
      (if p.code = 0x5400 then handleMonitor (wire p)
        else if p.code = 0x5401 then handleLogStream (wire p) else pure []).getD [] := by
  have hlen := length_wire p
  rw [onMessage, if_neg (by omega), unpackHHH_wire]
  rfl

theorem handleMonitor_wire {p : Packet} {dataType : UInt32} {rest : List UInt32}
    (h : p.argv.drop 5 = dataType :: rest) :
    handleMonitor (wire p) =
      if dataType = dataTypeHist then handleHistogram (wire p)
      else if dataType = dataTypeGraph then handleGraph (wire p)
      else if dataType = dataTypeParameter then handleParameter (wire p) else pure [] := by
  have hlen := length_wire p
  have hrest : (p.argv.drop 5).length = rest.length + 1 := by rw [h, List.length_cons]
  rw [List.length_drop] at hrest
  have htype : unpackI (slice (wire p) 28 32) = some dataType := unpackI_wire h
  rw [handleMonitor, if_neg (by omega), htype]
  rfl

/-! ### Histograms -/

/-- The number of bins in the layout of each histogram type. -/
def binCount (v : MonitorData) : ℕ :=
  if v.histType = DataType.tProfile.toUInt32 then v.nBinsX.toNat * 3
  else if v.histType = DataType.th2f.toUInt32 then (v.nBinsX.toNat + 2) * (v.nBinsY.toNat + 2)
  else v.nBinsX.toNat + 2

/-- The insert that carries a histogram; only two-dimensional ones have a range in `y`. A number of the
range is the double that the float is. -/
def histInsert (v : MonitorData) : Insert :=
  .hist v.runNumber (nameText v.hname) v.bins v.histType v.nBinsX (widen v.xMin) (widen v.xMax) v.nBinsY
    (if v.histType = DataType.th2f.toUInt32 then widen v.yMin else 0)
    (if v.histType = DataType.th2f.toUInt32 then widen v.yMax else 0)

/-- The rows for a histogram, one to a bin. -/
def histRows (v : MonitorData) : List HistRow :=
  v.bins.mapIdx fun idx bin =>
    ⟨v.runNumber, nameText v.hname, idx, widen bin, v.histType, v.nBinsX, widen v.xMin, widen v.xMax, v.nBinsY,
      if v.histType = DataType.th2f.toUInt32 then widen v.yMin else 0,
      if v.histType = DataType.th2f.toUInt32 then widen v.yMax else 0⟩

/-- The rows have the patterns of the bins, as no two floats are one double. -/
theorem bins_eq_of_histRows {v v' : MonitorData} (h : histRows v = histRows v') : v.bins = v'.bins := by
  refine List.ext_getElem? fun i => Option.map_injective widen_injective ?_
  have hrow := congrArg (fun rows => rows[i]?.map HistRow.binContent) h
  simp only [histRows, List.getElem?_mapIdx, Option.map_map] at hrow
  exact hrow

/-- The floats that the bridge converts for a histogram of one dimension. -/
def Quiet (v : MonitorData) : Prop :=
  ¬ Signalling v.xMin ∧ ¬ Signalling v.xMax ∧ ∀ bin ∈ v.bins, ¬ Signalling bin

instance (v : MonitorData) : Decidable (Quiet v) :=
  have := List.decidableBAll (¬ Signalling ·) v.bins
  inferInstanceAs (Decidable (_ ∧ _ ∧ _))

/-- The call that the bridge makes. -/
def histCall (v : MonitorData) : Insert :=
  .hist v.runNumber (nameText v.hname) v.bins v.histType v.nBinsX (convert v.xMin) (convert v.xMax) v.nBinsY
    (if v.histType = DataType.th2f.toUInt32 then convert v.yMin else 0)
    (if v.histType = DataType.th2f.toUInt32 then convert v.yMax else 0)

theorem histCall_eq_iff {v : MonitorData} (htype : v.histType = DataType.th1f.toUInt32) :
    (histCall v = histInsert v ∧ ∀ machine, (histCall v).rows machine = histRows v) ↔ Quiet v := by
  have hone : ¬ v.histType = DataType.th2f.toUInt32 := by
    rw [htype]
    decide
  have hcall : histCall v = histInsert v ↔ ¬ Signalling v.xMin ∧ ¬ Signalling v.xMax := by
    rw [← convert_eq_widen_iff, ← convert_eq_widen_iff]
    simp [histCall, histInsert, hone]
  rw [Quiet, ← and_assoc, ← hcall]
  refine and_congr_right fun hsame => ?_
  have hrows (machine : Host) : (histCall v).rows machine = histRows v ↔
      ∀ bin ∈ v.bins, ¬ Signalling bin := by
    rw [hsame, histInsert, Insert.rows, insertHistToDb, histRows, List.mapIdx_eq_mapIdx_iff,
      List.forall_mem_iff_forall_getElem]
    refine forall₂_congr fun i hi => ?_
    rw [machine.word_bytes, ← convert_eq_widen_iff]
    simp
  exact ⟨fun h => (hrows .little).mp (h .little), fun h machine => (hrows machine).mpr h⟩

theorem handleHistogram_words {v : MonitorData} (hname : Plain v.hname)
    (hbins : v.bins.length = binCount v) :
    handleHistogram (wire (streamPacket (v.words .little))) = some [histCall v] := by
  have hwords := v.length_words .little
  have hlen := length_wire (streamPacket (v.words .little))
  have hargv : (streamPacket (v.words .little)).argv = v.words .little := rfl
  rw [hargv] at hlen
  generalize hp : streamPacket (v.words .little) = p at *
  have hheader : p.argv = v.runNumber :: (nameWords .little v.hname ++
    ([v.histType, v.nBinsX, v.xMin, v.xMax, v.nBinsY, v.yMin, v.yMax] ++ v.bins)) := by rw [hargv]; rfl
  obtain ⟨h0, hn, hdrop⟩ := header_wire hheader hname
  have h5 : unpackI (slice (wire p) 28 32) = some v.histType := unpackI_wire (i := 5) (hdrop 0)
  have h6 : unpackI (slice (wire p) 32 36) = some v.nBinsX := unpackI_wire (i := 6) (hdrop 1)
  have h7 : unpackI (slice (wire p) 36 40) = some v.xMin := unpackI_wire (i := 7) (hdrop 2)
  have h8 : unpackI (slice (wire p) 40 44) = some v.xMax := unpackI_wire (i := 8) (hdrop 3)
  have h9 : unpackI (slice (wire p) 44 48) = some v.nBinsY := unpackI_wire (i := 9) (hdrop 4)
  have h10 : unpackI (slice (wire p) 48 52) = some v.yMin := unpackI_wire (i := 10) (hdrop 5)
  have h11 : unpackI (slice (wire p) 52 56) = some v.yMax := unpackI_wire (i := 11) (hdrop 6)
  have hcount : min (if v.histType = 3 then v.nBinsX.toNat * 3
      else if v.histType = 2 then (v.nBinsX.toNat + 2) * (v.nBinsY.toNat + 2)
      else v.nBinsX.toNat + 2) (((wire p).length - 56) / 4) = v.bins.length := by
    change min (binCount v) _ = _
    omega
  have hbins' : unpackIs v.bins.length (slice (wire p) 56 (56 + v.bins.length * 4)) =
      some v.bins := by
    have hread := unpackIs_wire (p := p) (i := 12) (n := v.bins.length) (by rw [hargv]; omega)
    rw [show 8 + 4 * (12 + v.bins.length) = 56 + v.bins.length * 4 by ring] at hread
    rw [hread, hdrop 7]
    simp
  rw [handleHistogram, if_neg (by omega)]
  simp only [unpackF, h0, hn, h5, h6, h7, h8, h9, h10, h11, Option.map_some, Option.bind_eq_bind,
    Option.bind_some, hcount, hbins']
  split_ifs with h2
  · simp [histCall, DataType.toUInt32, h2]
  · simp [histCall, DataType.toUInt32, h2]

theorem onMessage_histogram {v : MonitorData} (hname : Plain v.hname)
    (htype : v.histType = 1 ∨ v.histType = 2 ∨ v.histType = 3)
    (hbins : v.bins.length = binCount v) :
    onMessage (wire (streamPacket (v.words .little))) =
      if v.histType = DataType.th1f.toUInt32 then [histCall v] else [] := by
  have hdrop : (streamPacket (v.words .little)).argv.drop 5 =
      v.histType :: ([v.nBinsX, v.xMin, v.xMax, v.nBinsY, v.yMin, v.yMax] ++ v.bins) := by
    change (v.words .little).drop 5 = _
    simp [MonitorData.words]
  have hcode : (streamPacket (v.words .little)).code = 0x5400 := rfl
  rw [onMessage_wire, if_pos hcode, handleMonitor_wire hdrop, handleHistogram_words hname hbins]
  rcases htype with h | h | h <;> rw [h] <;> rfl

/-- The bridge inserts a histogram, row by row, exactly when its type is the one it dispatches on and none
of its floats is a NaN that the conversion to a double changes. -/
theorem histogram_recovered_iff (v : MonitorData) (hname : Plain v.hname)
    (htype : v.histType = 1 ∨ v.histType = 2 ∨ v.histType = 3)
    (hbins : v.bins.length = binCount v) (hwords : (v.encode .little).argv.length ≤ 65535) :
    (∃ bytes call, serialize (v.encode .little) none = some bytes ∧ onMessage bytes = [call] ∧
      call = histInsert v ∧ ∀ machine, call.rows machine = histRows v) ↔
      v.histType = DataType.th1f.toUInt32 ∧ Quiet v := by
  have hwell : (streamPacket (v.words .little)).WellSized :=
    streamPacket_wellSized (by rwa [MonitorData.encode_eq] at hwords)
  rw [MonitorData.encode_eq, serialize_eq_wire hwell]
  constructor
  · rintro ⟨bytes, call, hser, hmsg, hcall, hrows⟩
    obtain rfl := Option.some.inj hser
    rw [onMessage_histogram hname htype hbins] at hmsg
    by_cases hone : v.histType = DataType.th1f.toUInt32
    · rw [if_pos hone] at hmsg
      obtain rfl := List.singleton_inj.mp hmsg
      exact ⟨hone, (histCall_eq_iff hone).mp ⟨hcall, hrows⟩⟩
    · rw [if_neg hone] at hmsg
      cases hmsg
  · rintro ⟨hone, hquiet⟩
    obtain ⟨hcall, hrows⟩ := (histCall_eq_iff hone).mpr hquiet
    refine ⟨_, histCall v, rfl, ?_, hcall, hrows⟩
    rw [onMessage_histogram hname htype hbins]
    exact if_pos hone

/-- A histogram of one bin with a quiet NaN and an infinity. -/
def sampleHistogram1 : MonitorData :=
  ⟨7, sampleName, 1, 1, 0x80000000, 0x3F800000, 0, 0, 0, [0x00000001, 0x7FC00001, 0x7F800000]⟩

theorem histogram_recovered_iff_sample :
    ∃ bytes call, serialize (sampleHistogram1.encode .little) none = some bytes ∧
      onMessage bytes = [call] ∧ call = histInsert sampleHistogram1 ∧
      ∀ machine, call.rows machine = histRows sampleHistogram1 :=
  (histogram_recovered_iff sampleHistogram1 (by decide +kernel) (.inl rfl) rfl (by decide)).mpr
    ⟨rfl, by decide⟩

/-- A two-dimensional histogram of one bin and its border. -/
def sampleHistogram2 : MonitorData :=
  ⟨7, sampleName, 2, 1, 0, 0x3F800000, 1, 0, 0x3F800000, List.replicate 9 0x40000000⟩

/-- It has the layout of its type, and the bridge drops it. -/
theorem sampleHistogram2_dropped :
    (Plain sampleHistogram2.hname ∧
      sampleHistogram2.histType = DataType.th2f.toUInt32 ∧
      sampleHistogram2.bins.length = (1 + 2) * (1 + 2)) ∧
    ∃ bytes, serialize (sampleHistogram2.encode .little) none = some bytes ∧
      onMessage bytes = [] := by
  have hwell : (streamPacket (sampleHistogram2.words .little)).WellSized :=
    streamPacket_wellSized (by decide)
  have hplain : Plain sampleHistogram2.hname := by decide +kernel
  refine ⟨⟨hplain, rfl, rfl⟩, ?_⟩
  rw [MonitorData.encode_eq, serialize_eq_wire hwell]
  refine ⟨_, rfl, ?_⟩
  rw [onMessage_histogram hplain (.inr (.inl rfl)) rfl]
  rfl

/-! ### Graphs and parameters -/

theorem handleGraph_words {v : GraphData} (hname : Plain v.gname) (hsized : v.Sized) :
    handleGraph (wire (streamPacket (v.words .little))) =
      some [.graph v.runNumber (nameText v.gname) v.points] := by
  have hwords := v.length_words .little
  have hpoints : v.points.length = v.nPoints.toNat := by rw [hsized.points, hsized.length_zip]
  have hlen := length_wire (streamPacket (v.words .little))
  have hargv : (streamPacket (v.words .little)).argv = v.words .little := rfl
  rw [hargv] at hlen
  generalize hp : streamPacket (v.words .little) = p at *
  have hheader : p.argv = v.runNumber :: (nameWords .little v.gname ++
    ([DataType.tGraph.toUInt32, v.nPoints] ++ v.points.flatMap pointWords)) := by rw [hargv]; rfl
  obtain ⟨h0, hn, hdrop⟩ := header_wire hheader hname
  have h6 : unpackI (slice (wire p) 32 36) = some v.nPoints := unpackI_wire (i := 6) (hdrop 1)
  have hdrop7 : p.argv.drop 7 = v.points.flatMap pointWords := hdrop 2
  have hcount : min v.nPoints.toNat (((wire p).length - 36) / 16) = v.points.length := by omega
  have hpoint : ∀ i < v.points.length,
      graphPoint (wire p) (36 + i * 16) = some (v.points.getD i default) := by
    intro i hi
    have hread := unpackIs_wire (p := p) (i := 7 + 4 * i) (n := 4) (by rw [hargv]; omega)
    rw [← List.drop_drop, hdrop7, take_drop_pointWords hi,
      show 8 + 4 * (7 + 4 * i) = 36 + i * 16 by ring,
      show 8 + 4 * (7 + 4 * i + 4) = 36 + i * 16 + 16 by ring] at hread
    simp only [graphPoint, hread, pointWords, Option.bind_eq_bind, Option.bind_some,
      joinWords_split, List.getD_eq_getElem?_getD, List.getElem?_eq_getElem hi, Option.getD_some]
  have hloop := foldlM_collect [] hpoint
  rw [map_getD_range, List.nil_append] at hloop
  simp only [Option.bind_eq_bind] at hloop
  rw [handleGraph, if_neg (by omega)]
  simp only [h0, hn, h6, Option.bind_eq_bind, Option.bind_some, hcount, hloop]
  rfl

theorem handleParameter_words {v : ParameterData} (hname : Plain v.pname) :
    handleParameter (wire (streamPacket (v.words .little))) =
      some [.parameter v.runNumber (nameText v.pname) v.value] := by
  have hwords := v.length_words .little
  have hlen := length_wire (streamPacket (v.words .little))
  have hargv : (streamPacket (v.words .little)).argv = v.words .little := rfl
  rw [hargv] at hlen
  generalize hp : streamPacket (v.words .little) = p at *
  have hheader : p.argv = v.runNumber :: (nameWords .little v.pname ++
    [DataType.tParameter.toUInt32, highWord v.value, lowWord v.value]) := by rw [hargv]; rfl
  obtain ⟨h0, hn, hdrop⟩ := header_wire hheader hname
  have h6 : unpackI (slice (wire p) 32 36) = some (highWord v.value) :=
    unpackI_wire (i := 6) (hdrop 1)
  have h7 : unpackI (slice (wire p) 36 40) = some (lowWord v.value) :=
    unpackI_wire (i := 7) (hdrop 2)
  rw [handleParameter, if_neg (by omega)]
  simp only [h0, hn, h6, h7, Option.bind_eq_bind, Option.bind_some, joinWords_split]
  rfl

/-! ### Log entries -/

theorem ascii_safeMsg {message : List UInt8} (h : ∀ b ∈ message, b.toNat < 128) :
    ∀ b ∈ safeMsg message, b.toNat < 128 := by
  have hmark : ∀ b ∈ truncatedMark, b.toNat < 128 := by decide +kernel
  intro b hb
  rw [safeMsg] at hb
  split_ifs at hb
  · rcases List.mem_append.mp hb with hb | hb
    · exact h b (List.mem_of_mem_take hb)
    · exact hmark b hb
  · exact h b hb

/-- The message that the bridge makes of the words it was packed into. -/
theorem message_words {message : List UInt8} (h : ∀ b ∈ message, b.toNat < 128) {raw : List UInt8}
    (hraw : raw = (Host.little.rep.load (msgWords message) (safeMsg message)).flatMap bytes32) :
    decodeUtf8 ((swapGroups ((raw.length + 3) / 4) raw).take (safeMsg message).length) =
      asciiText (safeMsg message) := by
  have hlen : (raw.length + 3) / 4 = msgWords message := by
    rw [hraw, length_flatMap_bytes32, WordRep.length_load]
    omega
  have hroom : (safeMsg message).length ≤ msgWords message * Host.little.rep.width := by
    rw [msgWords, Host.rep_width]
    omega
  have hswap := swapGroups_flatMap (Host.little.rep.load (msgWords message) (safeMsg message))
  rw [WordRep.length_load, ← hraw] at hswap
  rw [hlen, hswap, WordRep.take_memory_load _ hroom, decodeUtf8_ascii (ascii_safeMsg h)]

theorem toNat_level (level : UInt8) : (level.toUInt32 &&& 0xFF).toNat = level.toNat := by
  have h := level.toNat_lt
  simp only [UInt32.toNat_and, UInt8.toNat_toUInt32, UInt32.reduceToNat]
  rw [show (255 : ℕ) = 2 ^ 8 - 1 from rfl, Nat.and_two_pow_sub_one_eq_mod]
  omega

theorem words_component (v : LogData) :
    ((v.words .little).drop 5).take 4 = nameWords .little v.component :=
  List.take_left' (length_nameWords _ _)

theorem words_message (v : LogData) :
    ((v.words .little).drop 9).take (msgWords v.message) =
      Host.little.rep.load (msgWords v.message) (safeMsg v.message) := by
  rw [show (9 : ℕ) = 5 + 4 by rfl, ← List.drop_drop]
  change ((nameWords .little v.component ++ _).drop 4).take _ = _
  rw [List.drop_left' (length_nameWords _ _)]
  exact List.take_of_length_le (WordRep.length_load _ _ _).le

/-- The insert for a log entry. -/
def logInsert (w : LogData) : Insert :=
  .log w.runNumber w.timestampMs w.level.toNat (logLevelStr w.level.toNat) (nameText w.component)
    (asciiText w.message)

theorem handleLogStream_words {v : LogData} (hname : Plain v.component)
    (hmsg : ∀ b ∈ v.message, b.toNat < 128) :
    handleLogStream (wire (v.encode .little)) =
      some [.log v.runNumber v.timestampMs v.level.toNat (logLevelStr v.level.toNat)
        (nameText v.component) (asciiText (safeMsg v.message))] := by
  have hwords := v.length_words .little
  have hsafe := length_safeMsg_le v.message
  have hcount : msgWords v.message = ((safeMsg v.message).length + 3) / 4 := rfl
  have hargv : (v.encode .little).argv = v.words .little := by rw [LogData.encode_eq]
  have hlen := length_wire (v.encode .little)
  rw [hargv] at hlen
  generalize hp : v.encode .little = p at *
  have hdata : slice (wire p) 8 ((wire p).length - 6) = (v.words .little).flatMap bytes32 := by
    have h := slice_wire (p := p) (i := 0) (n := (v.words .little).length) (by rw [hargv]; omega)
    rw [show 8 + 4 * (0 + (v.words .little).length) = (wire p).length - 6 by omega, hargv,
      List.drop_zero, List.take_length] at h
    exact h
  have hnum : ((v.words .little).flatMap bytes32).length / 4 = (v.words .little).length := by
    rw [length_flatMap_bytes32]
    omega
  have hall : ((v.words .little).flatMap bytes32).take ((v.words .little).length * 4) =
      (v.words .little).flatMap bytes32 := by
    apply List.take_of_length_le
    rw [length_flatMap_bytes32]
    omega
  have h0 : (v.words .little)[0]? = some v.runNumber := rfl
  have h1 : (v.words .little)[1]? = some (highWord v.timestampMs) := rfl
  have h2 : (v.words .little)[2]? = some (lowWord v.timestampMs) := rfl
  have h3 : (v.words .little)[3]? = some v.level.toUInt32 := rfl
  have h4 : (v.words .little)[4]? = some (UInt32.ofNat (safeMsg v.message).length) := rfl
  have hmsgLen : (UInt32.ofNat (safeMsg v.message).length).toNat = (safeMsg v.message).length := by
    rw [UInt32.toNat_ofNat']
    omega
  rw [handleLogStream, if_neg (by omega)]
  simp only [hdata, hnum]
  rw [if_neg (by omega), hall, unpackIs_flatMap]
  simp only [h0, h1, h2, h3, h4, Option.bind_eq_bind, Option.bind_some, toNat_level,
    hmsgLen, words_component, decodeName_words hname, joinWords_split, ← hcount, words_message,
    message_words hmsg rfl]
  by_cases hempty : 0 < (safeMsg v.message).length
  · rw [if_pos ⟨hempty, by omega⟩]
    rfl
  · have hnil : safeMsg v.message = [] := List.length_eq_zero_iff.mp (by omega)
    rw [if_neg (fun h => hempty h.1), hnil]
    rfl

/-- The insert for a graph. -/
def graphInsert (w : GraphData) : Insert :=
  .graph w.runNumber (nameText w.gname) (w.x.zip w.y)

/-- The insert for a parameter. -/
def parameterInsert (w : ParameterData) : Insert :=
  .parameter w.runNumber (nameText w.pname) w.value

theorem onMessage_graph {v : GraphData} (hname : Plain v.gname) (hsized : v.Sized) :
    onMessage (wire (streamPacket (v.words .little))) = [graphInsert v] := by
  have hdrop : (streamPacket (v.words .little)).argv.drop 5 =
      DataType.tGraph.toUInt32 :: v.nPoints :: v.points.flatMap pointWords := by
    change (v.words .little).drop 5 = _
    simp [GraphData.words]
  have hcode : (streamPacket (v.words .little)).code = 0x5400 := rfl
  rw [onMessage_wire, if_pos hcode, handleMonitor_wire hdrop, if_neg (by decide), if_pos (by decide),
    handleGraph_words hname hsized, hsized.points]
  rfl

theorem onMessage_parameter {v : ParameterData} (hname : Plain v.pname) :
    onMessage (wire (streamPacket (v.words .little))) = [parameterInsert v] := by
  have hdrop : (streamPacket (v.words .little)).argv.drop 5 =
      [DataType.tParameter.toUInt32, highWord v.value, lowWord v.value] := by
    change (v.words .little).drop 5 = _
    simp [ParameterData.words]
  have hcode : (streamPacket (v.words .little)).code = 0x5400 := rfl
  rw [onMessage_wire, if_pos hcode, handleMonitor_wire hdrop, if_neg (by decide), if_neg (by decide),
    if_pos (by decide), handleParameter_words hname]
  rfl

theorem onMessage_log {v : LogData} (hname : Plain v.component)
    (hlast : v.component.toList[15]? = some 0) (hmsg : ∀ b ∈ v.message, b.toNat < 128) :
    onMessage (wire (v.encode .little)) = [logInsert v.clamped] := by
  have hcode : (v.encode .little).code = 0x5401 := rfl
  have hcomp : v.component.set 15 0 = v.component := by
    have hlen : v.component.toList.length = 16 := Vector.length_toList
    rw [List.getElem?_eq_getElem (by omega), Option.some.injEq, Vector.getElem_toList] at hlast
    rw [← hlast]
    exact Vector.set_getElem_self _
  rw [onMessage_wire, if_neg (by rw [hcode]; decide), if_pos hcode,
    handleLogStream_words hname hmsg, logInsert, LogData.clamped, hcomp]
  rfl

/-- For logs, graphs and parameters the bridge inserts once, and what the C++ decoder returns. -/
theorem bridge_agrees (outPacket : Packet) :
    (∀ v out : LogData, Plain v.component → v.component.toList[15]? = some 0 →
      (∀ b ∈ v.message, b.toNat < 128) →
      ∃ bytes p w, serialize (v.encode .little) none = some bytes ∧
        (parse bytes outPacket).val = (true, p) ∧
        LogData.decode .little p out = some (true, w) ∧ onMessage bytes = [logInsert w]) ∧
    (∀ v out : GraphData, Plain v.gname → v.x.length = v.nPoints.toNat →
      v.y.length = v.nPoints.toNat →
      ∃ sent, v.encode .little = some sent ∧ (sent.argv.length ≤ 65535 →
        ∃ bytes p w, serialize sent none = some bytes ∧
          (parse bytes outPacket).val = (true, p) ∧
          GraphData.decode .little p out = some (true, w) ∧ onMessage bytes = [graphInsert w])) ∧
    (∀ v out : ParameterData, Plain v.pname →
      ∃ bytes p w, serialize (v.encode .little) none = some bytes ∧
        (parse bytes outPacket).val = (true, p) ∧
        ParameterData.decode .little p out = (true, w) ∧
        onMessage bytes = [parameterInsert w]) := by
  refine ⟨fun v out hname hlast hmsg => ?_, fun v out hname hx hy => ?_, fun v out hname => ?_⟩
  · have hwell := v.encode_wellSized .little
    exact ⟨_, _, v.clamped, serialize_eq_wire hwell, parse_wire hwell outPacket,
      v.decode_encode .little out, onMessage_log hname hlast hmsg⟩
  · have hsized : v.Sized := ⟨hx, hy⟩
    refine ⟨_, hsized.encode .little, fun h => ?_⟩
    have hwell := streamPacket_wellSized h
    exact ⟨_, _, v, serialize_eq_wire hwell, parse_wire hwell outPacket,
      GraphData.decode_encode .little out hsized h, onMessage_graph hname hsized⟩
  · have hlen := v.length_words .little
    have hwell : (v.encode .little).WellSized := by
      rw [ParameterData.encode_eq]
      exact streamPacket_wellSized (by omega)
    refine ⟨_, _, v, serialize_eq_wire hwell, parse_wire hwell outPacket,
      v.decode_encode .little out, ?_⟩
    rw [ParameterData.encode_eq]
    exact onMessage_parameter hname

def sampleLog : LogData := ⟨7, 1700000000123, 2, sampleName, [79, 75, 33, 33, 33]⟩

theorem bridge_agrees_samples :
    (∃ bytes p w, serialize (sampleLog.encode .little) none = some bytes ∧
      (parse bytes default).val = (true, p) ∧
      LogData.decode .little p sampleLog = some (true, w) ∧ onMessage bytes = [logInsert w]) ∧
    (∃ sent, sampleGraph.encode .little = some sent ∧ (sent.argv.length ≤ 65535 →
      ∃ bytes p w, serialize sent none = some bytes ∧ (parse bytes default).val = (true, p) ∧
        GraphData.decode .little p sampleGraph = some (true, w) ∧
        onMessage bytes = [graphInsert w])) ∧
    (∃ bytes p w, serialize (sampleParameter.encode .little) none = some bytes ∧
      (parse bytes default).val = (true, p) ∧
      ParameterData.decode .little p sampleParameter = (true, w) ∧
      onMessage bytes = [parameterInsert w]) :=
  ⟨(bridge_agrees default).1 sampleLog sampleLog (by decide +kernel) rfl (by decide +kernel),
    (bridge_agrees default).2.1 sampleGraph sampleGraph (by decide +kernel) rfl rfl,
    (bridge_agrees default).2.2 sampleParameter sampleParameter (by decide +kernel)⟩

end GramsTof.Ground
