import GramsTof.ProcessCalibration.CalibrateAsic
import GramsTof.ProcessCalibration.SortData

/-! `calibrateAllAsics`: the ASICs of the list file are calibrated by child processes, which change the entries
of one table in shared memory. The parent does not look at how a child has ended, and `wait` gives it any
child of its process. -/

namespace GramsTof.ProcessCalibration

open Lib

variable {ρ ε : Type*}

/-- As many children as processors, and as the memory has room for, but one at least. -/
def maxWorkers (nCPU totalRamBytes max_tmp_file_size : ℕ) : ℕ :=
  let maxWorkersByMem := totalRamBytes / (1 * 1024 * 1024 * 1024 + max_tmp_file_size)
  let maxWorkers := if nCPU < maxWorkersByMem then nCPU else maxWorkersByMem
  if maxWorkers > 1 then maxWorkers else 1

/-- The ASICs of the list file. -/
def jobs (sorted : Sorting ρ) : List ℕ := sorted.listFile.map Prod.fst

/-- What the child of an ASIC does, with the file of the ASIC's line. -/
def work (c : Calibration ρ ε) (sorted : Sorting ρ) (g : ℕ) : List (Update ℕ ε) :=
  match sorted.listFile.lookup g with
  | some fn => c.calibrateAsic g (sorted.disk fn)
  | none => []

/-- The runs of the parent and its children, in a process with some other children. -/
def calibrateAllAsics (maxWorkers : ℕ) (c : Calibration ρ ε) (sorted : Sorting ρ) (others : ℕ)
    (calibrationTable : ℕ → ε) : Machine (Workers ℕ ℕ ε) WorkersAct :=
  Workers.machine (work c sorted) maxWorkers (jobs sorted) others calibrationTable

section

variable {c : Calibration ρ ε} {sorted : Sorting ρ} {table : ℕ → ε}

theorem maxWorkers_pos (nCPU totalRamBytes max_tmp_file_size : ℕ) :
    0 < maxWorkers nCPU totalRamBytes max_tmp_file_size := by
  rw [maxWorkers]
  split_ifs <;> omega

theorem maxWorkers_le (nCPU totalRamBytes max_tmp_file_size : ℕ) :
    maxWorkers nCPU totalRamBytes max_tmp_file_size ≤ max nCPU 1 := by
  rw [maxWorkers]
  split_ifs <;> omega

/-- Each ASIC has one line. -/
theorem work_of_mem {g : ℕ} {fn : List Char} (h : (g, fn) ∈ sorted.listFile) :
    work c sorted g = c.calibrateAsic g (sorted.disk fn) := by
  have hnodup := nodup_listFile sorted
  obtain ⟨before, after, hsplit⟩ := List.append_of_mem h
  have hbefore : ∀ p ∈ before, g != p.1 := by
    intro p hp
    rw [hsplit, List.map_append, List.map_cons] at hnodup
    have hne := (List.nodup_append.mp hnodup).2.2 p.1 (List.mem_map_of_mem hp) g List.mem_cons_self
    exact bne_iff_ne.mpr hne.symm
  rw [work, List.lookup_eq_some_iff.mpr ⟨before, after, hsplit, hbefore⟩]

theorem local_work {g : ℕ} {u : Update ℕ ε} (h : u ∈ work c sorted g) : Local (· / c.perAsic) g u := by
  rw [work] at h
  split at h
  · exact c.own g _ u h
  · cases h

/-- However the parent, its children and the rest of the process interleave, and whatever fails: there are
never more children than allowed and as many as the parent has waited for of the rest; the calibration comes
to its end; and once no child is left, the entries of each ASIC whose child was made and not killed are what
calibrating it alone makes of its file, and those of an ASIC without a child are as before. -/
theorem table_exact (c : Calibration ρ ε) (sorted : Sorting ρ)
    (nCPU totalRamBytes max_tmp_file_size others : ℕ) (table : ℕ → ε) {as : List WorkersAct} {s : Workers ℕ ℕ ε}
    (h : (calibrateAllAsics (maxWorkers nCPU totalRamBytes max_tmp_file_size) c sorted others table).Steps
      (fun _ _ => True) (Workers.started (jobs sorted) others table) as s) :
    s.running.length + s.ended ≤ max nCPU 1 + s.strangers ∧
      as.length ≤ ((jobs sorted).map fun g => (work c sorted g).length + 4).sum + others + 1 +
        2 * as.count .arrive ∧
      (s.running = [] ∧ (s.thrown = true ∨ s.Finished) ∨ ∃ a s', a.smooth = true ∧
        Workers.step (work c sorted) (maxWorkers nCPU totalRamBytes max_tmp_file_size) s a = some s') ∧
      (s.Finished → s.strangers = 0 → s.running = [] ∧ s.ended = 0) ∧
      (s.running = [] →
        (∀ g fn, (g, fn) ∈ sorted.listFile → g ∉ s.todo → g ∉ s.unmade → g ∉ s.killed →
          ∀ gid, gid / c.perAsic = g →
            s.table gid = applied (c.calibrateAsic g (sorted.disk fn)) table gid) ∧
        ∀ gid, gid / c.perAsic ∉ jobs sorted ∨ gid / c.perAsic ∈ s.unmade ++ s.todo →
          s.table gid = table gid) := by
  obtain ⟨hle, hlen, hnext, hends, htable⟩ := Workers.run_spec (maxWorkers_pos _ _ _) (nodup_listFile sorted)
    (fun g _ u hu => local_work hu) h
  have hmax := maxWorkers_le nCPU totalRamBytes max_tmp_file_size
  refine ⟨by omega, hlen, hnext, hends, fun hrun => ⟨fun g fn hmem htodo hunmade hkilled gid hgid => ?_,
    fun gid => (htable hrun gid).2⟩⟩
  subst hgid
  have hjob : gid / c.perAsic ∈ jobs sorted := List.mem_map_of_mem hmem
  rw [(htable hrun gid).1 ⟨hjob, htodo, hunmade, hkilled⟩, work_of_mem hmem]

end

/-- Two ASICs, fits that need three records, and polynomials of order 4. The first child cannot be made; the
parent waits for the second, and then finds no child any more. -/
theorem table_exact_sample : ∃ s : Workers ℕ ℕ (Qdc.CalibrationEntry ℤ), s.Finished ∧
    (s.table (5 * 256)).valid = true ∧ (s.table (5 * 256)).p 4 = 1 ∧ (s.table (5 * 256)).p 5 = 0 ∧
    (s.table (2 * 256)).valid = false := by
  let sorted : Sorting ℕ := ⟨fun g => if g = 2 ∨ g = 5 then some (nameOf [] g) else none,
    fun fn => if fn = nameOf [] 5 then [1, 1, 1] else [1], 5⟩
  let fits : Qdc.Fits ℕ ℤ :=
    { range := fun _ file => if file.length < 3 then none else some (0, 2, 1)
      polN := fun _ _ order => if order = 4 then some fun _ => 1 else none }
  let table : ℕ → Qdc.CalibrationEntry ℤ := fun _ => ⟨fun _ => 0, 0, 0, 0, false⟩
  have hmade : ∃ s, (calibrateAllAsics (maxWorkers 2 (2 ^ 34) 0) (Qdc.calibration fits) sorted 0 table).run
      (Workers.started (jobs sorted) 0 table) [.fork false, .fork true] = some s ∧
        s = ⟨[], [(5, work (Qdc.calibration fits) sorted 5)], 0, 0, 2, false, table, [2], [], 0⟩ := ⟨_, rfl, rfl⟩
  obtain ⟨t, ht, rfl⟩ := hmade
  have hdone := (Machine.Steps.of_run ht).append_run (Workers.run_updates rfl)
  have hends := hdone.append_run (show Machine.run _ _ [.exit 0, .reap, .noChild] = some _ from rfl)
  obtain ⟨u, as, hrun, hfin, hnone, htodo, hunmade, hkilled⟩ : ∃ u as,
      (calibrateAllAsics (maxWorkers 2 (2 ^ 34) 0) (Qdc.calibration fits) sorted 0 table).Steps (fun _ _ => True)
        (Workers.started (jobs sorted) 0 table) as u ∧
      u.Finished ∧ u.running = [] ∧ u.todo = [] ∧ u.unmade = [2] ∧ u.killed = [] :=
    ⟨_, _, hends, ⟨rfl, rfl, rfl⟩, rfl, rfl, rfl, rfl⟩
  obtain ⟨-, -, -, -, htable⟩ := table_exact (Qdc.calibration fits) sorted 2 (2 ^ 34) 0 0 table hrun
  obtain ⟨hown, hleft⟩ := htable hnone
  have h5 := hown 5 (nameOf [] 5) (by decide) (by rw [htodo]; decide) (by rw [hunmade]; decide)
    (by rw [hkilled]; decide) (5 * 256) (show 5 * 256 / 256 = 5 by decide)
  have h2 := hleft (2 * 256) (.inr (by rw [hunmade, htodo]; decide))
  refine ⟨u, hfin, ?_, ?_, ?_, ?_⟩
  · rw [h5]
    decide +kernel
  · rw [h5]
    decide +kernel
  · rw [h5]
    decide +kernel
  · rw [h2]

end GramsTof.ProcessCalibration
