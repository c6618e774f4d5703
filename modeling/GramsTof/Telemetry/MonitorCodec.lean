import GramsTof.Codec.Canonical
import GramsTof.Telemetry.Host

/-! `GRAMS_TOF_MonitorCodec`: histograms, graphs and parameters as packets. Floats
and doubles are the bit patterns that the codec copies them to. -/

namespace GramsTof.Telemetry

open Codec Lib

/-! ### Doubles as two words -/

def highWord (bits : UInt64) : UInt32 := (bits >>> 32).toUInt32

def lowWord (bits : UInt64) : UInt32 := (bits &&& 0xFFFFFFFF).toUInt32

/-- `(uint64_t(high) << 32) | low`. -/
def joinWords (high low : UInt32) : UInt64 := (high.toUInt64 <<< 32) ||| low.toUInt64

theorem highWord_toNat (bits : UInt64) : (highWord bits).toNat = bits.toNat / 4294967296 := by
  have h := bits.toNat_lt
  simp only [highWord, UInt64.toNat_toUInt32, UInt64.toNat_shiftRight, UInt64.reduceToNat,
    Nat.reduceMod, Nat.shiftRight_eq_div_pow]
  omega

theorem lowWord_toNat (bits : UInt64) : (lowWord bits).toNat = bits.toNat % 4294967296 := by
  simp only [lowWord, UInt64.toNat_toUInt32, UInt64.toNat_and, UInt64.reduceToNat]
  rw [show (4294967295 : ℕ) = 2 ^ 32 - 1 from rfl, Nat.and_two_pow_sub_one_eq_mod]
  omega

theorem joinWords_toNat (high low : UInt32) :
    (joinWords high low).toNat = high.toNat * 4294967296 + low.toNat := by
  have hh := high.toNat_lt
  have hl := low.toNat_lt
  have hs : high.toNat <<< 32 < 2 ^ 64 := by rw [Nat.shiftLeft_eq]; omega
  simp only [joinWords, UInt64.toNat_or, UInt64.toNat_shiftLeft, UInt32.toNat_toUInt64,
    UInt64.reduceToNat, Nat.reduceMod, Nat.mod_eq_of_lt hs]
  exact shiftLeft_or _ _ 32 (by omega)

theorem joinWords_split (bits : UInt64) : joinWords (highWord bits) (lowWord bits) = bits := by
  apply UInt64.toNat_inj.mp
  rw [joinWords_toNat, highWord_toNat, lowWord_toNat]
  omega

/-! ### Histograms -/

/-- `DataType`. -/
inductive DataType where
  | th1f
  | th2f
  | tProfile
  | tGraph
  | tParameter
  deriving DecidableEq, Repr

def DataType.toUInt32 : DataType → UInt32
  | th1f => 1
  | th2f => 2
  | tProfile => 3
  | tGraph => 4
  | tParameter => 5

/-- `TOFCommandCode::MONITOR_DATA_STREAM`. -/
def monitorDataStream : UInt16 := 0x5400

@[ext]
structure MonitorData where
  runNumber : UInt32
  hname : Name
  histType : UInt32
  nBinsX : UInt32
  xMin : UInt32
  xMax : UInt32
  nBinsY : UInt32
  yMin : UInt32
  yMax : UInt32
  bins : List UInt32
  deriving DecidableEq

def MonitorData.encode (host : Host) (data : MonitorData) : Packet :=
  let argv := [data.runNumber]
  let argv := pushName host argv data.hname
  let argv := argv ++ [data.histType]
  let argv := argv ++ [data.nBinsX]
  let argv := argv ++ [data.xMin]
  let argv := argv ++ [data.xMax]
  let argv := argv ++ [data.nBinsY]
  let argv := argv ++ [data.yMin]
  let argv := argv ++ [data.yMax]
  let argv := argv ++ data.bins
  ⟨monitorDataStream, UInt16.ofNat argv.length, argv⟩

/-- The returned flag and `outData` after the call. -/
def MonitorData.decode (host : Host) (packet : Packet) (outData : MonitorData) :
    Bool × MonitorData :=
  if h : packet.argv.length < 12 then (false, outData)
  else
    (true,
      { runNumber := packet.argv[0]
        hname := copyName host packet.argv 1 (by omega)
        histType := packet.argv[5]
        nBinsX := packet.argv[6]
        xMin := packet.argv[7]
        xMax := packet.argv[8]
        nBinsY := packet.argv[9]
        yMin := packet.argv[10]
        yMax := packet.argv[11]
        bins := packet.argv.drop 12 })

/-! ### Graphs -/

@[ext]
structure GraphData where
  runNumber : UInt32
  gname : Name
  nPoints : UInt32
  x : List UInt64
  y : List UInt64
  deriving DecidableEq

/-- No packet when `x` or `y` has fewer than `nPoints` values: the loop then reads past its end. -/
def GraphData.encode (host : Host) (data : GraphData) : Option Packet := do
  let argv := [data.runNumber]
  let argv := pushName host argv data.gname
  let argv := argv ++ [DataType.tGraph.toUInt32]
  let argv := argv ++ [data.nPoints]
  let argv ← (List.range data.nPoints.toNat).foldlM (fun argv i => do
    let bX ← data.x[i]?
    let bY ← data.y[i]?
    pure (argv ++ [highWord bX, lowWord bX, highWord bY, lowWord bY])) argv
  pure ⟨monitorDataStream, UInt16.ofNat argv.length, argv⟩

/-- One point read back; `i` and the indices are `uint32_t`. -/
def GraphData.point (argv : List UInt32) (i : UInt32) : Option (UInt64 × UInt64) := do
  let xHigh ← argv[(7 + i * 4).toNat]?
  let xLow ← argv[(7 + i * 4 + 1).toNat]?
  let yHigh ← argv[(7 + i * 4 + 2).toNat]?
  let yLow ← argv[(7 + i * 4 + 3).toNat]?
  pure (joinWords xHigh xLow, joinWords yHigh yLow)

/-- No result when the points run past the end of `argv`, which is not checked. -/
def GraphData.decode (host : Host) (packet : Packet) (outData : GraphData) :
    Option (Bool × GraphData) :=
  if h : packet.argv.length < 7 then some (false, outData)
  else if packet.argv[5] ≠ DataType.tGraph.toUInt32 then some (false, outData)
  else do
    let nPoints := packet.argv[6]
    let points ← (List.range nPoints.toNat).foldlM (fun points i => do
      let point ← GraphData.point packet.argv (UInt32.ofNat i)
      pure (points ++ [point])) []
    pure (true,
      { runNumber := packet.argv[0]
        gname := copyName host packet.argv 1 (by omega)
        nPoints := nPoints
        x := points.map Prod.fst
        y := points.map Prod.snd })

/-! ### Parameters -/

@[ext]
structure ParameterData where
  runNumber : UInt32
  pname : Name
  value : UInt64
  deriving DecidableEq

def ParameterData.encode (host : Host) (data : ParameterData) : Packet :=
  let argv := [data.runNumber]
  let argv := pushName host argv data.pname
  let argv := argv ++ [DataType.tParameter.toUInt32]
  let argv := argv ++ [highWord data.value]
  let argv := argv ++ [lowWord data.value]
  ⟨monitorDataStream, UInt16.ofNat argv.length, argv⟩

def ParameterData.decode (host : Host) (packet : Packet) (outData : ParameterData) :
    Bool × ParameterData :=
  if h : packet.argv.length < 8 then (false, outData)
  else if packet.argv[5] ≠ DataType.tParameter.toUInt32 then (false, outData)
  else
    (true,
      { runNumber := packet.argv[0]
        pname := copyName host packet.argv 1 (by omega)
        value := joinWords packet.argv[6] packet.argv[7] })

/-! ### The point loops -/

/-- The words of one point. -/
def pointWords (point : UInt64 × UInt64) : List UInt32 :=
  [highWord point.1, lowWord point.1, highWord point.2, lowWord point.2]

theorem length_flatMap_pointWords (points : List (UInt64 × UInt64)) :
    (points.flatMap pointWords).length = 4 * points.length := by
  induction points with
  | nil => rfl
  | cons p ps ih =>
    rw [List.flatMap_cons, List.length_append, ih, List.length_cons, pointWords]
    simp only [List.length_cons, List.length_nil]
    omega

/-- The loop of the encoder writes the first `n` points, when there are as many. -/
theorem foldlM_pointWords (x y : List UInt64) (argv : List UInt32) (n : ℕ) :
    (List.range n).foldlM (fun argv i => do
      let bX ← x[i]?
      let bY ← y[i]?
      pure (argv ++ [highWord bX, lowWord bX, highWord bY, lowWord bY])) argv =
      if n ≤ (x.zip y).length then some (argv ++ ((x.zip y).take n).flatMap pointWords)
      else none := by
  induction n with
  | zero => simp
  | succ n ih =>
    rw [List.range_succ, List.foldlM_append, ih]
    have hzip : (x.zip y).length = min x.length y.length := List.length_zip
    by_cases hn : n + 1 ≤ (x.zip y).length
    · have hx : n < x.length := by omega
      have hy : n < y.length := by omega
      have hxy : n < (x.zip y).length := by omega
      rw [if_pos (by omega), if_pos hn, List.take_succ_eq_append_getElem hxy, List.flatMap_append,
        List.flatMap_singleton, ← List.append_assoc]
      simp [List.getElem?_eq_getElem hx, List.getElem?_eq_getElem hy, pointWords]
    · rw [if_neg hn]
      split_ifs with h
      · rcases Nat.lt_or_ge n x.length with hx | hx
        · have hy : y.length ≤ n := by omega
          simp [List.getElem?_eq_getElem hx, List.getElem?_eq_none hy]
        · simp [List.getElem?_eq_none hx]
      · rfl

/-- A loop that never fails collects its values. -/
theorem foldlM_collect {α : Type} {f : ℕ → Option α} {g : ℕ → α} {n : ℕ} (acc : List α)
    (h : ∀ i < n, f i = some (g i)) :
    (List.range n).foldlM (fun acc i => do
      let a ← f i
      pure (acc ++ [a])) acc = some (acc ++ (List.range n).map g) := by
  induction n with
  | zero => simp
  | succ n ih =>
    rw [List.range_succ, List.foldlM_append, ih fun i hi => h i (by omega)]
    simp [h n (by omega)]

/-- Four words at `4 * i` belong to the `i`-th point. -/
theorem getElem?_pointWords {points : List (UInt64 × UInt64)} {i k : ℕ} (hi : i < points.length)
    (hk : k < 4) : (points.flatMap pointWords)[4 * i + k]? = (pointWords points[i])[k]? := by
  induction points generalizing i with
  | nil => simp at hi
  | cons p ps ih =>
    have hlen : (pointWords p).length = 4 := rfl
    rw [List.flatMap_cons]
    cases i with
    | zero =>
      rw [Nat.mul_zero, Nat.zero_add, List.getElem?_append_left (by omega), List.getElem_cons_zero]
    | succ i =>
      rw [List.getElem?_append_right (by omega), hlen,
        show 4 * (i + 1) + k - 4 = 4 * i + k by omega, List.getElem_cons_succ]
      exact ih (by simpa using hi)

theorem take_drop_pointWords {points : List (UInt64 × UInt64)} {i : ℕ} (hi : i < points.length) :
    ((points.flatMap pointWords).drop (4 * i)).take 4 = pointWords points[i] := by
  induction points generalizing i with
  | nil => simp at hi
  | cons p ps ih =>
    have hlen : (pointWords p).length = 4 := rfl
    cases i with
    | zero => rfl
    | succ i =>
      rw [List.flatMap_cons, show 4 * (i + 1) = 4 + 4 * i by ring, ← List.drop_drop,
        List.drop_left' hlen, List.getElem_cons_succ]
      exact ih (by simpa using hi)

theorem GraphData.point_eq {head : List UInt32} {points : List (UInt64 × UInt64)} {i : ℕ}
    (hhead : head.length = 7) (hi : i < points.length) (hbound : points.length ≤ 65536) :
    GraphData.point (head ++ points.flatMap pointWords) (UInt32.ofNat i) = some points[i] := by
  have hat : ∀ k < 4, (head ++ points.flatMap pointWords)[7 + (4 * i + k)]? =
      (pointWords points[i])[k]? := fun k hk => by
    rw [List.getElem?_append_right (by omega), hhead, Nat.add_sub_cancel_left,
      getElem?_pointWords hi hk]
  have hidx : ∀ c : UInt32, c.toNat < 4 →
      (7 + UInt32.ofNat i * 4 + c).toNat = 7 + (4 * i + c.toNat) := fun c hc => by
    simp only [UInt32.toNat_add, UInt32.toNat_mul, UInt32.toNat_ofNat', UInt32.reduceToNat]
    omega
  have h0 : (7 + UInt32.ofNat i * 4).toNat = 7 + (4 * i + 0) := by
    rw [← UInt32.add_zero (7 + UInt32.ofNat i * 4)]
    exact hidx 0 (by decide)
  have h1 : (7 + UInt32.ofNat i * 4 + 1).toNat = 7 + (4 * i + 1) := hidx 1 (by decide)
  have h2 : (7 + UInt32.ofNat i * 4 + 2).toNat = 7 + (4 * i + 2) := hidx 2 (by decide)
  have h3 : (7 + UInt32.ofNat i * 4 + 3).toNat = 7 + (4 * i + 3) := hidx 3 (by decide)
  rw [point, h0, h1, h2, h3, hat 0 (by omega), hat 1 (by omega), hat 2 (by omega), hat 3 (by omega)]
  simp [pointWords, joinWords_split]

/-! ### Round trips -/

/-- A packet with the given words and their count, as far as it fits its field. -/
def streamPacket (argv : List UInt32) : Packet :=
  ⟨monitorDataStream, UInt16.ofNat argv.length, argv⟩

theorem streamPacket_wellSized {argv : List UInt32} (h : argv.length ≤ 65535) :
    (streamPacket argv).WellSized := by
  simp only [streamPacket, Packet.WellSized, UInt16.toNat_ofNat']
  omega

/-- The words of a histogram. -/
def MonitorData.words (host : Host) (v : MonitorData) : List UInt32 :=
  v.runNumber :: (nameWords host v.hname ++
    ([v.histType, v.nBinsX, v.xMin, v.xMax, v.nBinsY, v.yMin, v.yMax] ++ v.bins))

theorem MonitorData.encode_eq (host : Host) (v : MonitorData) :
    v.encode host = streamPacket (v.words host) := by simp [encode, pushName, streamPacket, words]

theorem MonitorData.length_words (host : Host) (v : MonitorData) :
    (v.words host).length = 12 + v.bins.length := by
  simp only [words, List.length_cons, List.length_append, length_nameWords, List.length_nil]
  omega

theorem MonitorData.decode_encode (host : Host) (v out : MonitorData) :
    MonitorData.decode host (v.encode host) out = (true, v) := by
  have hlen : (v.encode host).argv.length = 12 + v.bins.length := by
    rw [encode_eq]
    exact v.length_words host
  have hargv : (v.encode host).argv = v.words host := by rw [encode_eq]; rfl
  have hdrop : (v.words host).drop 1 = nameWords host v.hname ++
    ([v.histType, v.nBinsX, v.xMin, v.xMax, v.nBinsY, v.yMin, v.yMax] ++ v.bins) := rfl
  rw [decode, dif_neg (by omega)]
  congr 1
  ext1
  case hname => exact copyName_of_drop host (by omega) (by rw [hargv, hdrop])
  case bins => simp [hargv, words, List.drop_append]
  all_goals simp [hargv, words]

/-- The points that the encoder takes from `x` and `y`. -/
def GraphData.points (v : GraphData) : List (UInt64 × UInt64) := (v.x.zip v.y).take v.nPoints.toNat

/-- The words of a graph. -/
def GraphData.words (host : Host) (v : GraphData) : List UInt32 :=
  v.runNumber :: (nameWords host v.gname ++
    ([DataType.tGraph.toUInt32, v.nPoints] ++ v.points.flatMap pointWords))

theorem GraphData.encode_eq_ite (host : Host) (v : GraphData) :
    v.encode host =
      if v.nPoints.toNat ≤ (v.x.zip v.y).length then some (streamPacket (v.words host))
      else none := by
  simp only [encode, foldlM_pointWords]
  split_ifs
  · simp [pushName, streamPacket, words, points]
  · rfl

/-- `x` and `y` hold `nPoints` values each. -/
def GraphData.Sized (v : GraphData) : Prop :=
  v.x.length = v.nPoints.toNat ∧ v.y.length = v.nPoints.toNat

instance (v : GraphData) : Decidable v.Sized := inferInstanceAs (Decidable (_ ∧ _))

theorem GraphData.Sized.length_zip {v : GraphData} (h : v.Sized) :
    (v.x.zip v.y).length = v.nPoints.toNat := by
  rw [List.length_zip, h.1, h.2, min_self]

theorem GraphData.Sized.points {v : GraphData} (h : v.Sized) : v.points = v.x.zip v.y := by
  rw [GraphData.points, ← h.length_zip, List.take_length]

theorem GraphData.Sized.encode {v : GraphData} (host : Host) (h : v.Sized) :
    v.encode host = some (streamPacket (v.words host)) := by
  rw [encode_eq_ite, if_pos h.length_zip.ge]

theorem GraphData.length_words (host : Host) (v : GraphData) :
    (v.words host).length = 7 + 4 * v.points.length := by
  simp only [words, List.length_cons, List.length_append, length_nameWords, List.length_nil,
    length_flatMap_pointWords]
  omega

theorem GraphData.point_words (host : Host) {v : GraphData} {i : ℕ} (hi : i < v.points.length)
    (hbound : v.points.length ≤ 65536) :
    GraphData.point (v.words host) (UInt32.ofNat i) = some (v.points.getD i default) := by
  have happ : v.words host = (v.runNumber :: (nameWords host v.gname ++
      [DataType.tGraph.toUInt32, v.nPoints])) ++ v.points.flatMap pointWords := by simp [words]
  rw [happ, GraphData.point_eq (by simp) hi hbound, List.getD_eq_getElem?_getD,
    List.getElem?_eq_getElem hi, Option.getD_some]

theorem map_getD_range {α : Type} [Inhabited α] (xs : List α) :
    (List.range xs.length).map (fun i => xs.getD i default) = xs := by
  apply List.ext_getElem
  · simp
  · intro i h₁ h₂
    simp [List.getD_eq_getElem?_getD, List.getElem?_eq_getElem h₂]

theorem GraphData.decode_encode (host : Host) {v : GraphData} (out : GraphData) (h : v.Sized)
    (hwords : (v.words host).length ≤ 65535) :
    GraphData.decode host (streamPacket (v.words host)) out = some (true, v) := by
  have hpoints : v.points.length = v.nPoints.toNat := by rw [h.points, h.length_zip]
  have hlen := v.length_words host
  have hargv : (streamPacket (v.words host)).argv = v.words host := rfl
  have hdrop : (v.words host).drop 1 = nameWords host v.gname ++
    ([DataType.tGraph.toUInt32, v.nPoints] ++ v.points.flatMap pointWords) := rfl
  have htype : (v.words host)[5] = DataType.tGraph.toUInt32 := by simp [words]
  have hcount : (v.words host)[6] = v.nPoints := by simp [words]
  have hloop := foldlM_collect (n := v.points.length) []
    fun i hi => GraphData.point_words host (v := v) hi (by omega)
  rw [map_getD_range, List.nil_append, hpoints] at hloop
  simp only [decode, hargv]
  rw [dif_neg (by omega), if_neg (by simp [htype])]
  simp only [hcount]
  rw [hloop]
  simp only [Option.bind_eq_bind, Option.bind_some, Option.pure_def]
  congr 2
  ext1
  case runNumber => rfl
  case gname => exact copyName_of_drop host (by omega) hdrop
  case nPoints => rfl
  case x =>
    change v.points.map Prod.fst = v.x
    rw [h.points, List.map_fst_zip (by rw [h.1, h.2])]
  case y =>
    change v.points.map Prod.snd = v.y
    rw [h.points, List.map_snd_zip (by rw [h.1, h.2])]

/-- The words of a parameter. -/
def ParameterData.words (host : Host) (v : ParameterData) : List UInt32 :=
  v.runNumber :: (nameWords host v.pname ++
    [DataType.tParameter.toUInt32, highWord v.value, lowWord v.value])

theorem ParameterData.encode_eq (host : Host) (v : ParameterData) :
    v.encode host = streamPacket (v.words host) := by simp [encode, pushName, streamPacket, words]

theorem ParameterData.length_words (host : Host) (v : ParameterData) :
    (v.words host).length = 8 := by simp [words]

theorem ParameterData.decode_encode (host : Host) (v out : ParameterData) :
    ParameterData.decode host (v.encode host) out = (true, v) := by
  have hlen := v.length_words host
  have hargv : (streamPacket (v.words host)).argv = v.words host := rfl
  have hdrop : (v.words host).drop 1 = nameWords host v.pname ++
    [DataType.tParameter.toUInt32, highWord v.value, lowWord v.value] := rfl
  have htype : (v.words host)[5] = DataType.tParameter.toUInt32 := by simp [words]
  simp only [encode_eq, decode, hargv]
  rw [dif_neg (by omega), if_neg (by simp [htype])]
  congr 1
  ext1
  case runNumber => rfl
  case pname => exact copyName_of_drop host (by omega) hdrop
  case value => simp [words, joinWords_split]

/-- Histograms, graphs and parameters of at most 65535 words come back from the wire bit for
bit. -/
theorem monitor_round_trip (host : Host) (outPacket : Packet) :
    (∀ v out : MonitorData, (v.encode host).argv.length ≤ 65535 →
      ∃ bytes p, serialize (v.encode host) none = some bytes ∧
        (parse bytes outPacket).val = (true, p) ∧ MonitorData.decode host p out = (true, v)) ∧
    (∀ v out : GraphData, v.x.length = v.nPoints.toNat → v.y.length = v.nPoints.toNat →
      ∃ sent, v.encode host = some sent ∧ (sent.argv.length ≤ 65535 →
        ∃ bytes p, serialize sent none = some bytes ∧
          (parse bytes outPacket).val = (true, p) ∧
          GraphData.decode host p out = some (true, v))) ∧
    (∀ v out : ParameterData, (v.encode host).argv.length ≤ 65535 →
      ∃ bytes p, serialize (v.encode host) none = some bytes ∧
        (parse bytes outPacket).val = (true, p) ∧ ParameterData.decode host p out = (true, v)) := by
  refine ⟨fun v out h => ?_, fun v out hx hy => ?_, fun v out h => ?_⟩
  · have hwell : (v.encode host).WellSized := by
      rw [MonitorData.encode_eq] at h ⊢
      exact streamPacket_wellSized h
    exact ⟨_, _, serialize_eq_wire hwell, parse_wire hwell outPacket, v.decode_encode host out⟩
  · have hsized : v.Sized := ⟨hx, hy⟩
    refine ⟨_, hsized.encode host, fun h => ?_⟩
    have hwell := streamPacket_wellSized h
    exact ⟨_, _, serialize_eq_wire hwell, parse_wire hwell outPacket,
      GraphData.decode_encode host out hsized h⟩
  · have hwell : (v.encode host).WellSized := by
      rw [ParameterData.encode_eq] at h ⊢
      exact streamPacket_wellSized h
    exact ⟨_, _, serialize_eq_wire hwell, parse_wire hwell outPacket, v.decode_encode host out⟩

/-- A name of text and zeros. -/
def sampleName : Name := #v[72, 105, 116, 115, 0, 0, 0, 0, 0, 0, 0, 0, 0, 0, 0, 0]

/-- A negative zero, a NaN with a payload and an infinity in three bins. -/
def sampleHistogram : MonitorData :=
  ⟨7, sampleName, 1, 1, 0x80000000, 0x7FC00001, 0, 0, 0, [0x80000000, 0x7FA00001, 0x7F800000]⟩

def sampleGraph : GraphData := ⟨7, sampleName, 1, [0x8000000000000000], [0x7FF0000000000001]⟩

def sampleParameter : ParameterData := ⟨7, sampleName, 0x7FF8000000000002⟩

theorem monitor_round_trip_samples :
    (∃ bytes p, serialize (sampleHistogram.encode .little) none = some bytes ∧
      (parse bytes default).val = (true, p) ∧
      MonitorData.decode .little p sampleHistogram = (true, sampleHistogram)) ∧
    (∃ sent, sampleGraph.encode .little = some sent ∧ (sent.argv.length ≤ 65535 →
      ∃ bytes p, serialize sent none = some bytes ∧ (parse bytes default).val = (true, p) ∧
        GraphData.decode .little p sampleGraph = some (true, sampleGraph))) ∧
    (∃ bytes p, serialize (sampleParameter.encode .little) none = some bytes ∧
      (parse bytes default).val = (true, p) ∧
      ParameterData.decode .little p sampleParameter = (true, sampleParameter)) :=
  ⟨(monitor_round_trip .little default).1 sampleHistogram sampleHistogram (by decide),
    (monitor_round_trip .little default).2.1 sampleGraph sampleGraph rfl rfl,
    (monitor_round_trip .little default).2.2 sampleParameter sampleParameter (by decide)⟩

end GramsTof.Telemetry
