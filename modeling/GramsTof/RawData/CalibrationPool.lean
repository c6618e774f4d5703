import GramsTof.Lib.Counter
import GramsTof.Lib.Separate
import GramsTof.RawData.Event
import GramsTof.RawData.WriteRaw
import Mathlib.Algebra.Group.Action.Defs

/-! `CalibrationPool`: in a calibration mode the data writer counts equal event words instead of writing
frames. The threads of the pool all go through the frames of a block, and each one counts the events
whose channel falls to it. -/

namespace GramsTof.RawData

open Lib

/-- What spreads the channels over the threads. -/
def channelHash (word : UInt64) : UInt32 :=
  let g := getChannelID word
  g % 64 ^^^ (g >>> 6) % 64 ^^^ (g >>> 12) % 32 ^^^ (g >>> 17) % 32

/-- The thread that counts an event. -/
def cpuOf (n_cpu : ℕ) (word : UInt64) : ℕ := (channelHash word).toNat % n_cpu

/-- A map of `calEventSet`. -/
abbrev EventSet := List (UInt64 × UInt32)

/-- A thread of a batch: the frame and the event where it is, and its own map. -/
structure PoolThread where
  index2 : ℕ
  i : ℕ
  eventSet : EventSet

/-- One round of a loop of `thread_routine`, the inner one as long as the frame has events. -/
def threadStep (n_cpu : ℕ) (shm : ℕ → Data) (stop cpu_index : ℕ) (t : PoolThread) : Option PoolThread :=
  if t.index2 = stop then none
  else
    let data := shm (t.index2 % MaxRawDataFrameQueueSize)
    if t.i < getNEvents data then
      let event_word := data (t.i + 2)
      some { t with
        i := t.i + 1
        eventSet := if cpuOf n_cpu event_word = cpu_index then Counter.bump event_word t.eventSet
          else t.eventSet }
    else some { t with index2 := (t.index2 + 1) % (2 * MaxRawDataFrameQueueSize), i := 0 }

/-- The threads of a batch that ends at `stop`; the labels of the steps are the threads. -/
def pool (n_cpu : ℕ) (shm : ℕ → Data) (start stop : ℕ) : Machine (Fin n_cpu → PoolThread) (Fin n_cpu) :=
  separate (fun _ t => t.index2 = start ∧ t.i = 0) (fun i => threadStep n_cpu shm stop i)

/-- The threads as they are created. -/
def created {n_cpu : ℕ} (start : ℕ) (calEventSet : Fin n_cpu → EventSet) : Fin n_cpu → PoolThread :=
  fun i => ⟨start, 0, calEventSet i⟩

/-- All threads have come to their end, so that they can be joined. -/
def Joined {n_cpu : ℕ} (shm : ℕ → Data) (stop : ℕ) (ts : Fin n_cpu → PoolThread) : Prop :=
  ∀ i : Fin n_cpu, threadStep n_cpu shm stop i (ts i) = none

/-- `processBatch`, in any order of the steps of its threads. -/
def ProcessBatch {n_cpu : ℕ} (shm : ℕ → Data) (start stop : ℕ) (calEventSet calEventSet' : Fin n_cpu → EventSet) :
    Prop :=
  ∃ as ts, (pool n_cpu shm start stop).Steps (fun _ _ => True) (created start calEventSet) as ts ∧
    Joined shm stop ts ∧ calEventSet' = fun i => (ts i).eventSet

/-- The event words of a frame. -/
def eventWords (data : Data) : List UInt64 := (List.range (getNEvents data)).map fun i => data (i + 2)

/-- The event words of the frames of a batch. -/
def batchWords (shm : ℕ → Data) (start stop : ℕ) : List UInt64 :=
  (Ring.window MaxRawDataFrameQueueSize shm start (Ring.level MaxRawDataFrameQueueSize stop start)).flatMap
    eventWords

/-- Each map counts the words of its thread. -/
def Counted {n_cpu : ℕ} (calEventSet : Fin n_cpu → EventSet) (words : List UInt64) : Prop :=
  ∀ i : Fin n_cpu, Counter.Counts (calEventSet i) (words.filter fun w => cpuOf n_cpu w = i)

/-! ### A thread alone -/

section Thread

variable {n_cpu : ℕ} {shm : ℕ → Data} {stop cpu : ℕ}

/-- The words of a thread, counted. -/
def countWords (n_cpu cpu : ℕ) (m : EventSet) (ws : List UInt64) : EventSet :=
  (ws.filter fun w => cpuOf n_cpu w = cpu).foldl (fun m w => Counter.bump w m) m

theorem countWords_cons (m : EventSet) (w : UInt64) (ws : List UInt64) : countWords n_cpu cpu m (w :: ws) =
    countWords n_cpu cpu (if cpuOf n_cpu w = cpu then Counter.bump w m else m) ws := by
  rw [countWords, List.filter_cons]
  by_cases h : cpuOf n_cpu w = cpu
  · simp [h, countWords]
  · simp [h, countWords]

theorem countWords_append (m : EventSet) (ws vs : List UInt64) : countWords n_cpu cpu m (ws ++ vs) =
    countWords n_cpu cpu (countWords n_cpu cpu m ws) vs := by
  rw [countWords, List.filter_append, List.foldl_append]
  rfl

theorem drop_eventWords {data : Data} {i : ℕ} (hi : i < getNEvents data) :
    (eventWords data).drop i = data (i + 2) :: (eventWords data).drop (i + 1) := by
  rw [List.drop_eq_getElem_cons (by simpa [eventWords] using hi)]
  simp [eventWords]

/-- A frame, from an event on: the thread counts its words and goes on to the next frame. -/
theorem ends_frame {index2 : ℕ} (hne : index2 ≠ stop) {data : Data}
    (hdata : shm (index2 % MaxRawDataFrameQueueSize) = data) {k : ℕ} {e : PoolThread} {m : EventSet} {i : ℕ}
    (hi : i ≤ getNEvents data)
    (h : Ends (threadStep n_cpu shm stop cpu)
      ⟨(index2 + 1) % (2 * MaxRawDataFrameQueueSize), 0, countWords n_cpu cpu m ((eventWords data).drop i)⟩ k e) :
    Ends (threadStep n_cpu shm stop cpu) ⟨index2, i, m⟩ (k + 1 + (getNEvents data - i)) e := by
  generalize hleft : getNEvents data - i = left at *
  induction left generalizing i m with
  | zero =>
    have hdone : ¬i < getNEvents data := by omega
    have hnil : (eventWords data).drop i = [] := List.drop_eq_nil_of_le (by simp [eventWords]; omega)
    rw [hnil] at h
    refine .step ?_ h
    rw [threadStep, if_neg hne, hdata]
    exact if_neg hdone
  | succ left ih =>
    have hlt : i < getNEvents data := by omega
    rw [drop_eventWords hlt, countWords_cons] at h
    refine .step ?_ (ih (by omega) h (by omega))
    rw [threadStep, if_neg hne, hdata]
    exact if_pos hlt

/-- The rounds that a thread makes over some frames. -/
def rounds (fs : List Data) : ℕ := (fs.map fun f => getNEvents f + 1).sum

theorem ends_frames {count rd : ℕ} (hrd : rd < 2 * MaxRawDataFrameQueueSize)
    (hcount : count < 2 * MaxRawDataFrameQueueSize)
    (hstop : stop = (rd + count) % (2 * MaxRawDataFrameQueueSize)) (m : EventSet) :
    Ends (threadStep n_cpu shm stop cpu) ⟨rd, 0, m⟩
      (rounds (Ring.window MaxRawDataFrameQueueSize shm rd count))
      ⟨stop, 0, countWords n_cpu cpu m ((Ring.window MaxRawDataFrameQueueSize shm rd count).flatMap eventWords)⟩ := by
  induction count generalizing rd m with
  | zero =>
    obtain rfl : stop = rd := hstop.trans (Nat.mod_eq_of_lt hrd)
    exact .refl (if_pos rfl)
  | succ count ih =>
    have hne : rd ≠ stop := by
      have hfar := Ring.pointer_ne (n := MaxRawDataFrameQueueSize) (i := rd) (j := rd + (count + 1)) (by omega)
        (by omega)
      rwa [Nat.mod_eq_of_lt hrd, ← hstop] at hfar
    have hnext : stop = ((rd + 1) % (2 * MaxRawDataFrameQueueSize) + count) % (2 * MaxRawDataFrameQueueSize) := by
      rw [hstop, Nat.mod_add_mod, Nat.add_right_comm, Nat.add_assoc]
    have hrest := ih (Nat.mod_lt _ (by omega)) (by omega) hnext
      (countWords n_cpu cpu m (eventWords (shm (rd % MaxRawDataFrameQueueSize))))
    have hfirst := ends_frame hne rfl (Nat.zero_le _) hrest
    rw [Ring.window_succ, List.flatMap_cons, countWords_append]
    have hrounds : rounds (shm (rd % MaxRawDataFrameQueueSize) ::
        Ring.window MaxRawDataFrameQueueSize shm ((rd + 1) % (2 * MaxRawDataFrameQueueSize)) count) =
        rounds (Ring.window MaxRawDataFrameQueueSize shm ((rd + 1) % (2 * MaxRawDataFrameQueueSize)) count) + 1 +
          (getNEvents (shm (rd % MaxRawDataFrameQueueSize)) - 0) := by
      simp only [rounds, List.map_cons, List.sum_cons]
      omega
    rw [hrounds]
    exact hfirst

end Thread

/-! ### The threads together -/

/-- The entries of all maps, in the order in which `writeOut` goes through them. -/
def entries {n_cpu : ℕ} (calEventSet : Fin n_cpu → EventSet) : EventSet :=
  (List.finRange n_cpu).flatMap calEventSet

section Batch

variable {n_cpu : ℕ} {shm : ℕ → Data} {start stop : ℕ} {calEventSet : Fin n_cpu → EventSet} {ws : List UInt64}

theorem counted_nil : Counted (fun _ : Fin n_cpu => []) [] := fun _ => Counter.counts_nil

/-- Together the maps have one entry for each word, whichever threads the words fall to. -/
theorem Counted.perm (h : Counted calEventSet ws) (hpos : 0 < n_cpu) :
    (entries calEventSet).Perm (ws.dedup.map fun w => (w, UInt32.ofNat (ws.count w))) := by
  have hmem : ∀ (i : Fin n_cpu) w n, (w, n) ∈ calEventSet i ↔
      (w ∈ ws ∧ cpuOf n_cpu w = i) ∧ n = UInt32.ofNat (ws.count w) := by
    intro i w n
    rw [(h i).mem_iff, List.mem_filter, decide_eq_true_iff]
    refine and_congr_right fun hw => ?_
    rw [List.count_filter (p := fun w => decide (cpuOf n_cpu w = i)) (decide_eq_true hw.2)]
  refine (List.perm_ext_iff_of_nodup ?_ ?_).mpr fun p => ?_
  · refine List.nodup_flatMap.mpr ⟨fun i _ => (h i).ascending.nodup, ?_⟩
    refine (List.nodup_finRange n_cpu).imp fun {i j} hij => List.disjoint_left.mpr fun p hi hj => hij ?_
    exact Fin.ext (((hmem i p.1 p.2).mp hi).1.2.symm.trans ((hmem j p.1 p.2).mp hj).1.2)
  · exact (List.nodup_dedup ws).map fun w v he => (Prod.mk.inj he).1
  · obtain ⟨w, n⟩ := p
    rw [entries, List.mem_flatMap, List.mem_map]
    constructor
    · rintro ⟨i, -, hi⟩
      obtain ⟨⟨hw, -⟩, rfl⟩ := (hmem i w n).mp hi
      exact ⟨w, List.mem_dedup.mpr hw, rfl⟩
    · rintro ⟨v, hv, he⟩
      obtain ⟨rfl, rfl⟩ := Prod.mk.inj he
      have hlt : cpuOf n_cpu v < n_cpu := Nat.mod_lt _ hpos
      exact ⟨⟨_, hlt⟩, List.mem_finRange _, (hmem _ v _).mpr ⟨⟨List.mem_dedup.mp hv, rfl⟩, rfl⟩⟩

/-- The state in which every batch ends. -/
theorem ends_batch (hstart : start < 2 * MaxRawDataFrameQueueSize) (hstop : stop < 2 * MaxRawDataFrameQueueSize)
    (i : Fin n_cpu) : Ends (threadStep n_cpu shm stop i) (created start calEventSet i)
      (rounds (Ring.window MaxRawDataFrameQueueSize shm start (Ring.level MaxRawDataFrameQueueSize stop start)))
      ⟨stop, 0, countWords n_cpu i (calEventSet i) (batchWords shm start stop)⟩ :=
  ends_frames hstart (Nat.mod_lt _ (by omega)) (Ring.add_level hstop hstart).symm (calEventSet i)

theorem Counted.batch (h : Counted calEventSet ws) (vs : List UInt64) :
    Counted (fun i : Fin n_cpu => countWords n_cpu i (calEventSet i) vs) (ws ++ vs) := by
  intro i
  rw [List.filter_append]
  exact (h i).foldl_bump _

theorem processBatch_counted (hstart : start < 2 * MaxRawDataFrameQueueSize)
    (hstop : stop < 2 * MaxRawDataFrameQueueSize) {calEventSet' : Fin n_cpu → EventSet}
    (h : Counted calEventSet ws) (hbatch : ProcessBatch shm start stop calEventSet calEventSet') :
    Counted calEventSet' (ws ++ batchWords shm start stop) := by
  obtain ⟨as, ts, hsteps, hjoined, rfl⟩ := hbatch
  obtain rfl := eq_of_still (ends_batch hstart hstop) hsteps hjoined
  exact h.batch _

/-- A batch can be processed. -/
theorem exists_processBatch (shm : ℕ → Data) (hstart : start < 2 * MaxRawDataFrameQueueSize)
    (hstop : stop < 2 * MaxRawDataFrameQueueSize) (calEventSet : Fin n_cpu → EventSet) :
    ∃ calEventSet', ProcessBatch shm start stop calEventSet calEventSet' := by
  have hends := @ends_batch n_cpu shm start stop calEventSet hstart hstop
  have hnil : (pool n_cpu shm start stop).Steps (fun _ _ => True) (created start calEventSet) []
      (created start calEventSet) := .nil
  obtain ⟨bs, hbs⟩ := exists_steps_of_ends hends hnil
  exact ⟨_, bs, _, hbs, fun i => (hends i).still, rfl⟩

/-- However the steps of its threads interleave, a batch comes to an end, and then the maps have one
entry for each word of the step so far, with the number of times it has come. -/
theorem batch_counts (hpos : 0 < n_cpu) (hstart : start < 2 * MaxRawDataFrameQueueSize)
    (hstop : stop < 2 * MaxRawDataFrameQueueSize) (h : Counted calEventSet ws) {as : List (Fin n_cpu)}
    {ts : Fin n_cpu → PoolThread}
    (hsteps : (pool n_cpu shm start stop).Steps (fun _ _ => True) (created start calEventSet) as ts) :
    as.length ≤ n_cpu * rounds
        (Ring.window MaxRawDataFrameQueueSize shm start (Ring.level MaxRawDataFrameQueueSize stop start)) ∧
      (∃ bs us, (pool n_cpu shm start stop).Steps (fun _ _ => True) (created start calEventSet) (as ++ bs) us ∧
        Joined shm stop us) ∧
      (Joined shm stop ts → Counted (fun i => (ts i).eventSet) (ws ++ batchWords shm start stop) ∧
        (entries fun i => (ts i).eventSet).Perm ((ws ++ batchWords shm start stop).dedup.map fun w =>
          (w, UInt32.ofNat ((ws ++ batchWords shm start stop).count w)))) := by
  have hends := @ends_batch n_cpu shm start stop calEventSet hstart hstop
  refine ⟨?_, ?_, fun hjoined => ?_⟩
  · have hle := length_le_of_ends hends hsteps
    rwa [Finset.sum_const, Finset.card_univ, Fintype.card_fin, smul_eq_mul] at hle
  · obtain ⟨bs, hbs⟩ := exists_steps_of_ends hends hsteps
    exact ⟨bs, _, hbs, fun i => (hends i).still⟩
  · have hcounted := processBatch_counted hstart hstop h ⟨as, ts, hsteps, hjoined, rfl⟩
    exact ⟨hcounted, hcounted.perm hpos⟩

/-- One frame with a word that comes twice, on two threads. -/
theorem batch_counts_sample : ∃ ts : Fin 2 → PoolThread,
    Joined (fun _ => ofWords (frame 3 [5, 9, 5])) 1 ts ∧
      (entries fun i => (ts i).eventSet).Perm [(9, 1), (5, 2)] := by
  have hnil : (pool 2 (fun _ => ofWords (frame 3 [5, 9, 5])) 0 1).Steps (fun _ _ => True)
      (created 0 fun _ => []) [] (created 0 fun _ => []) := .nil
  obtain ⟨-, ⟨bs, us, hus, hjoined⟩, -⟩ := batch_counts (by decide) (by decide) (by decide) counted_nil hnil
  obtain ⟨-, -, hcount⟩ := batch_counts (by decide) (by decide) (by decide) counted_nil hus
  exact ⟨us, hjoined, (hcount hjoined).2.trans (by decide)⟩

end Batch

end GramsTof.RawData
