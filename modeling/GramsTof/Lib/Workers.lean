import GramsTof.Lib.Machine
import Mathlib.Algebra.BigOperators.Group.List.Basic
import Mathlib.Algebra.GroupWithZero.Nat
import Mathlib.Logic.Function.Basic

/-! A parent that gives each job to a child process, at most so many at a time, over a table that they
share. A job is a list of changes of the table, each within the keys that belong to the job. Starting a
child can fail, a child can be killed, and the process may have other children that the parent waits for
by mistake. Where a child was started and not killed, its keys end as the job alone makes them. -/

namespace GramsTof.Lib

variable {ι κ ε : Type*}

/-- A change of a table. -/
abbrev Update (κ ε : Type*) := (κ → ε) → κ → ε

/-- A change that reads and sets only the keys of `j`. -/
structure Local (owner : κ → ι) (j : ι) (u : Update κ ε) : Prop where
  frame : ∀ t k, owner k ≠ j → u t k = t k
  reads : ∀ t t' : κ → ε, (∀ k, owner k = j → t k = t' k) → ∀ k, owner k = j → u t k = u t' k

/-- Changes one after another. -/
def applied (us : List (Update κ ε)) (table : κ → ε) : κ → ε := us.foldl (fun t u => u t) table

theorem applied_append (us vs : List (Update κ ε)) (table : κ → ε) :
    applied (us ++ vs) table = applied vs (applied us table) := List.foldl_append

/-- A change of one entry. -/
def changed [DecidableEq κ] (k : κ) (f : ε → ε) : Update κ ε := fun t => Function.update t k (f (t k))

theorem local_changed [DecidableEq κ] {owner : κ → ι} {j : ι} {k : κ} (hk : owner k = j) (f : ε → ε) :
    Local owner j (changed k f) where
  frame t k' h := Function.update_of_ne (fun he => h ((congrArg owner he).trans hk)) _ _
  reads t t' h k' hk' := by
    by_cases he : k' = k
    · subst he
      rw [changed, changed, Function.update_self, Function.update_self, h k' hk']
    · rw [changed, changed, Function.update_of_ne he, Function.update_of_ne he, h k' hk']

/-- The parent, its children with what they have still to do, those that have ended and were not waited for,
and the other children of the process. The last three fields keep what a run has lost: the jobs whose child
could not be made, those whose child was killed, and how often the parent has waited for another's child. -/
structure Workers (ι κ ε : Type*) where
  todo : List ι
  running : List (ι × List (Update κ ε))
  ended : ℕ
  others : ℕ
  nWorkers : ℕ
  thrown : Bool
  table : κ → ε
  unmade : List ι
  killed : List ι
  strangers : ℕ

/-- The parent opens what the next child reads, starts the child or waits; the child number `i` makes a
change, ends or is killed; others start a child, wait for one of theirs, or for one of the parent's. -/
inductive WorkersAct where
  | openFails
  | fork (made : Bool)
  | update (i : ℕ)
  | exit (i : ℕ)
  | kill (i : ℕ)
  | reap
  | reapOther
  | noChild
  | waitFails
  | arrive
  | leave
  | taken
  deriving DecidableEq

/-- Nothing fails, and no one else does anything. -/
def WorkersAct.smooth : WorkersAct → Bool
  | .fork made => made
  | .update _ | .exit _ | .reap | .reapOther | .noChild => true
  | .openFails | .kill _ | .waitFails | .arrive | .leave | .taken => false

namespace Workers

/-- The parent is in a loop that waits: it has as many children as it may, or no job is left. -/
def Waits (maxWorkers : ℕ) (s : Workers ι κ ε) : Prop :=
  s.thrown = false ∧ (maxWorkers ≤ s.nWorkers ∨ s.todo = [] ∧ 0 < s.nWorkers)

instance (maxWorkers : ℕ) (s : Workers ι κ ε) : Decidable (s.Waits maxWorkers) := by
  unfold Waits
  exact inferInstance

theorem Waits.nWorkers_pos {maxWorkers : ℕ} {s : Workers ι κ ε} (h : s.Waits maxWorkers)
    (hpos : 0 < maxWorkers) : 0 < s.nWorkers :=
  h.2.elim (Nat.lt_of_lt_of_le hpos) And.right

/-- The parent is at the start of the loop's body. -/
def Starts (maxWorkers : ℕ) (s : Workers ι κ ε) : Prop := s.thrown = false ∧ s.nWorkers < maxWorkers

instance (maxWorkers : ℕ) (s : Workers ι κ ε) : Decidable (s.Starts maxWorkers) := by
  unfold Starts
  exact inferInstance

/-- A failing `fork` counts as a worker. Without any child left `wait` fails, which the loop over the jobs
takes for an error and the last loop for the end. -/
def step (work : ι → List (Update κ ε)) (maxWorkers : ℕ) (s : Workers ι κ ε) :
    WorkersAct → Option (Workers ι κ ε)
  | .openFails => if s.Starts maxWorkers ∧ s.todo ≠ [] then some { s with thrown := true } else none
  | .fork made =>
    match s.todo with
    | [] => none
    | j :: todo =>
      if ¬s.Starts maxWorkers then none
      else if made then
        some { s with todo := todo, running := s.running ++ [(j, work j)], nWorkers := s.nWorkers + 1 }
      else some { s with todo := todo, unmade := s.unmade ++ [j], nWorkers := s.nWorkers + 1 }
  | .update i =>
    match s.running[i]? with
    | some (j, u :: left) => some { s with running := s.running.set i (j, left), table := u s.table }
    | _ => none
  | .exit i =>
    match s.running[i]? with
    | some (_, []) => some { s with running := s.running.eraseIdx i, ended := s.ended + 1 }
    | _ => none
  | .kill i =>
    match s.running[i]? with
    | some (j, _) =>
      some { s with running := s.running.eraseIdx i, ended := s.ended + 1, killed := s.killed ++ [j] }
    | none => none
  | .reap =>
    if s.Waits maxWorkers ∧ 0 < s.ended then
      some { s with ended := s.ended - 1, nWorkers := s.nWorkers - 1 }
    else none
  | .reapOther =>
    if s.Waits maxWorkers ∧ 0 < s.others then
      some { s with others := s.others - 1, nWorkers := s.nWorkers - 1, strangers := s.strangers + 1 }
    else none
  | .noChild =>
    if s.Waits maxWorkers ∧ s.running = [] ∧ s.ended = 0 ∧ s.others = 0 then
      if maxWorkers ≤ s.nWorkers then some { s with thrown := true } else some { s with nWorkers := 0 }
    else none
  | .waitFails => if s.Waits maxWorkers then some { s with thrown := true } else none
  | .arrive => some { s with others := s.others + 1 }
  | .leave => if 0 < s.others then some { s with others := s.others - 1 } else none
  | .taken => if 0 < s.ended then some { s with ended := s.ended - 1 } else none

/-- Before the first job, with some other children of the process. -/
def started (jobs : List ι) (others : ℕ) (table : κ → ε) : Workers ι κ ε :=
  ⟨jobs, [], 0, others, 0, false, table, [], [], 0⟩

/-- The runs over some jobs. -/
def machine (work : ι → List (Update κ ε)) (maxWorkers : ℕ) (jobs : List ι) (others : ℕ) (table : κ → ε) :
    Machine (Workers ι κ ε) WorkersAct where
  init s := s = started jobs others table
  step := step work maxWorkers

/-- The parent has returned. -/
def Finished (s : Workers ι κ ε) : Prop := s.thrown = false ∧ s.todo = [] ∧ s.nWorkers = 0

/-- A child was started for the job and not killed. -/
def Served (s : Workers ι κ ε) (jobs : List ι) (j : ι) : Prop :=
  j ∈ jobs ∧ j ∉ s.todo ∧ j ∉ s.unmade ∧ j ∉ s.killed

/-! ### Steps -/

/-- A place of a list, what putting there changes, and what taking it out leaves. -/
theorem exists_split {α : Type*} {l : List α} {i : ℕ} {x : α} (h : l[i]? = some x) :
    ∃ before after, l = before ++ x :: after ∧ (∀ y, l.set i y = before ++ y :: after) ∧
      l.eraseIdx i = before ++ after := by
  induction l generalizing i with
  | nil => cases h
  | cons z l ih =>
    cases i with
    | zero =>
      obtain rfl : z = x := Option.some.inj h
      exact ⟨[], l, rfl, fun _ => rfl, rfl⟩
    | succ i =>
      obtain ⟨before, after, rfl, hset, herase⟩ := ih h
      exact ⟨z :: before, after, rfl, fun y => congrArg (z :: ·) (hset y), congrArg (z :: ·) herase⟩

variable {work : ι → List (Update κ ε)} {maxWorkers : ℕ} {s s' : Workers ι κ ε} {a : WorkersAct}

/-- What a step can do. -/
inductive Moved (work : ι → List (Update κ ε)) (maxWorkers : ℕ) (s : Workers ι κ ε) :
    WorkersAct → Workers ι κ ε → Prop
  | throws (a : WorkersAct) : s.thrown = false → a ≠ .arrive →
      Moved work maxWorkers s a { s with thrown := true }
  | made (j : ι) (todo : List ι) : s.nWorkers < maxWorkers → s.todo = j :: todo →
      Moved work maxWorkers s (.fork true)
        { s with todo := todo, running := s.running ++ [(j, work j)], nWorkers := s.nWorkers + 1 }
  | unmade (j : ι) (todo : List ι) : s.nWorkers < maxWorkers → s.todo = j :: todo →
      Moved work maxWorkers s (.fork false)
        { s with todo := todo, unmade := s.unmade ++ [j], nWorkers := s.nWorkers + 1 }
  | update (i : ℕ) (j : ι) (u : Update κ ε) (left : List (Update κ ε))
      (before after : List (ι × List (Update κ ε))) : s.running = before ++ (j, u :: left) :: after →
      Moved work maxWorkers s (.update i)
        { s with running := before ++ (j, left) :: after, table := u s.table }
  | exit (i : ℕ) (j : ι) (before after : List (ι × List (Update κ ε))) :
      s.running = before ++ (j, []) :: after →
      Moved work maxWorkers s (.exit i) { s with running := before ++ after, ended := s.ended + 1 }
  | kill (i : ℕ) (j : ι) (left : List (Update κ ε)) (before after : List (ι × List (Update κ ε))) :
      s.running = before ++ (j, left) :: after →
      Moved work maxWorkers s (.kill i)
        { s with running := before ++ after, ended := s.ended + 1, killed := s.killed ++ [j] }
  | reap : s.Waits maxWorkers → 0 < s.ended →
      Moved work maxWorkers s .reap { s with ended := s.ended - 1, nWorkers := s.nWorkers - 1 }
  | reapOther : s.Waits maxWorkers → 0 < s.others →
      Moved work maxWorkers s .reapOther
        { s with others := s.others - 1, nWorkers := s.nWorkers - 1, strangers := s.strangers + 1 }
  | noChild : s.Waits maxWorkers → s.nWorkers < maxWorkers → s.running = [] → s.ended = 0 →
      Moved work maxWorkers s .noChild { s with nWorkers := 0 }
  | arrive : Moved work maxWorkers s .arrive { s with others := s.others + 1 }
  | leave : 0 < s.others → Moved work maxWorkers s .leave { s with others := s.others - 1 }
  | taken : 0 < s.ended → Moved work maxWorkers s .taken { s with ended := s.ended - 1 }

theorem moved (h : step work maxWorkers s a = some s') : Moved work maxWorkers s a s' := by
  cases a with
  | openFails =>
    rw [step] at h
    split_ifs at h with hopen
    cases h
    exact .throws _ hopen.1.1 (by decide)
  | fork made =>
    rw [step] at h
    split at h
    · cases h
    · rename_i j todo htodo
      split_ifs at h with hstarts hmade
      · cases h
        obtain rfl : made = true := hmade
        exact .made j todo hstarts.2 htodo
      · cases h
        obtain rfl : made = false := Bool.not_eq_true made ▸ hmade
        exact .unmade j todo hstarts.2 htodo
  | update i =>
    rw [step] at h
    split at h
    · rename_i j u left hi
      obtain ⟨before, after, hsplit, hset, -⟩ := exists_split hi
      cases h
      rw [hset]
      exact .update i j u left before after hsplit
    · cases h
  | exit i =>
    rw [step] at h
    split at h
    · rename_i j hi
      obtain ⟨before, after, hsplit, -, herase⟩ := exists_split hi
      cases h
      rw [herase]
      exact .exit i j before after hsplit
    · cases h
  | kill i =>
    rw [step] at h
    split at h
    · rename_i j left hi
      obtain ⟨before, after, hsplit, -, herase⟩ := exists_split hi
      cases h
      rw [herase]
      exact .kill i j left before after hsplit
    · cases h
  | reap =>
    rw [step] at h
    split_ifs at h with hreap
    cases h
    exact .reap hreap.1 hreap.2
  | reapOther =>
    rw [step] at h
    split_ifs at h with hreap
    cases h
    exact .reapOther hreap.1 hreap.2
  | noChild =>
    rw [step] at h
    split_ifs at h with hnone hmax
    · cases h
      exact .throws _ hnone.1.1 (by decide)
    · cases h
      exact .noChild hnone.1 (Nat.lt_of_not_le hmax) hnone.2.1 hnone.2.2.1
  | waitFails =>
    rw [step] at h
    split_ifs at h with hwaits
    cases h
    exact .throws _ hwaits.1 (by decide)
  | arrive =>
    cases h
    exact .arrive
  | leave =>
    rw [step] at h
    split_ifs at h with hpos
    cases h
    exact .leave hpos
  | taken =>
    rw [step] at h
    split_ifs at h with hpos
    cases h
    exact .taken hpos

/-! ### What holds in every state -/

/-- The jobs that are running, could not be made or are still to come are different jobs, and what has been
done of each, `done`, accounts for its keys. -/
structure Inv (work : ι → List (Update κ ε)) (owner : κ → ι) (maxWorkers : ℕ) (jobs : List ι) (table : κ → ε)
    (s : Workers ι κ ε) (done : ι → List (Update κ ε)) : Prop where
  bounded : s.nWorkers ≤ maxWorkers
  children : s.running.length + s.ended ≤ s.nWorkers + s.strangers
  nodup : (s.running.map Prod.fst ++ s.unmade ++ s.todo).Nodup
  known : ∀ j ∈ s.running.map Prod.fst ++ s.unmade ++ s.todo, j ∈ jobs
  table : ∀ k, s.table k = applied (done (owner k)) table k
  split : ∀ p ∈ s.running, done p.1 ++ p.2 = work p.1
  untouched : ∀ j, j ∉ jobs ∨ j ∈ s.unmade ++ s.todo → done j = []
  complete : ∀ j, s.Served jobs j → j ∉ s.running.map Prod.fst → done j = work j

section Runs

variable {owner : κ → ι} {jobs : List ι} {others : ℕ} {table : κ → ε} {done : ι → List (Update κ ε)}

theorem inv_started (hjobs : jobs.Nodup) :
    Inv work owner maxWorkers jobs table (started jobs others table) fun _ => [] where
  bounded := Nat.zero_le _
  children := Nat.le_refl 0
  nodup := hjobs
  known _ h := h
  table _ := rfl
  split _ h := absurd h List.not_mem_nil
  untouched _ _ := rfl
  complete _ h _ := absurd h.1 h.2.1

/-- A change of a child moves its job on, and nothing else. -/
theorem Inv.update [DecidableEq ι] (hi : Inv work owner maxWorkers jobs table s done)
    (hlocal : ∀ j ∈ jobs, ∀ u ∈ work j, Local owner j u) {j : ι} {u : Update κ ε}
    {left : List (Update κ ε)} {before after : List (ι × List (Update κ ε))}
    (hrun : s.running = before ++ (j, u :: left) :: after) :
    Inv work owner maxWorkers jobs table { s with running := before ++ (j, left) :: after, table := u s.table }
      (Function.update done j (done j ++ [u])) := by
  have hmem : (j, u :: left) ∈ s.running := hrun ▸ List.mem_append_right _ List.mem_cons_self
  have hfst : (before ++ (j, left) :: after).map Prod.fst = s.running.map Prod.fst := by
    rw [hrun, List.map_append, List.map_append, List.map_cons, List.map_cons]
  have hj : j ∈ s.running.map Prod.fst := List.mem_map_of_mem hmem
  have hjob : j ∈ jobs := hi.known j (List.mem_append_left _ (List.mem_append_left _ hj))
  have hwork := hi.split _ hmem
  have hu : Local owner j u := hlocal j hjob u (hwork ▸ List.mem_append_right _ List.mem_cons_self)
  have hnodup := hi.nodup
  rw [List.append_assoc] at hnodup
  have hapart := (List.nodup_append.mp hnodup).2.2
  have hother : ∀ p ∈ before ++ after, p.1 ≠ j := by
    have hrunning := (List.nodup_append.mp hnodup).1
    rw [hrun, List.map_append, List.map_cons] at hrunning
    have hperm := (List.nodup_cons.mp ((List.perm_middle.nodup_iff).mp hrunning)).1
    rw [← List.map_append] at hperm
    exact fun p hp he => hperm (List.mem_map.mpr ⟨p, hp, he⟩)
  refine ⟨hi.bounded, ?_, ?_, ?_, fun k => ?_, fun p hp => ?_, fun j' hj' => ?_, fun j' hj' hnot => ?_⟩
  · have hlen := congrArg List.length hfst
    rw [List.length_map, List.length_map] at hlen
    show (before ++ (j, left) :: after).length + _ ≤ _
    rw [hlen]
    exact hi.children
  · show ((before ++ (j, left) :: after).map Prod.fst ++ s.unmade ++ s.todo).Nodup
    rw [hfst]
    exact hi.nodup
  · show ∀ j' ∈ (before ++ (j, left) :: after).map Prod.fst ++ s.unmade ++ s.todo, j' ∈ jobs
    rw [hfst]
    exact hi.known
  · show u s.table k = _
    by_cases hk : owner k = j
    · rw [hk, Function.update_self, applied_append]
      exact hu.reads _ _ (fun k' hk' => hk' ▸ hi.table k') k hk
    · rw [Function.update_of_ne hk, hu.frame _ _ hk]
      exact hi.table k
  · rcases List.mem_append.mp hp with hp | hp
    · rw [Function.update_of_ne (hother p (List.mem_append_left _ hp))]
      exact hi.split p (hrun ▸ List.mem_append_left _ hp)
    · rcases List.mem_cons.mp hp with rfl | hp
      · rw [Function.update_self, List.append_assoc]
        exact hwork
      · rw [Function.update_of_ne (hother p (List.mem_append_right _ hp))]
        exact hi.split p (hrun ▸ List.mem_append_right _ (List.mem_cons_of_mem _ hp))
  · have hne : j' ≠ j := by
      rintro rfl
      exact hj'.elim (fun h => h hjob) fun h => hapart j' hj j' h rfl
    rw [Function.update_of_ne hne]
    exact hi.untouched j' hj'
  · have hnot' : j' ∉ s.running.map Prod.fst := hfst ▸ hnot
    have hne : j' ≠ j := by
      rintro rfl
      exact hnot' hj
    rw [Function.update_of_ne hne]
    exact hi.complete j' hj' hnot'

/-- A child that is gone leaves what has been done of its job; that is all of it unless it was killed. -/
theorem Inv.gone (hi : Inv work owner maxWorkers jobs table s done) {j : ι} {left : List (Update κ ε)}
    {before after : List (ι × List (Update κ ε))} (hrun : s.running = before ++ (j, left) :: after)
    {killed : List ι} (hsub : ∀ j' ∈ s.killed, j' ∈ killed) (hleft : left = [] ∨ j ∈ killed) :
    Inv work owner maxWorkers jobs table
      { s with running := before ++ after, ended := s.ended + 1, killed := killed } done := by
  have hsublist : (before ++ after).Sublist s.running :=
    hrun ▸ List.Sublist.append_left (List.sublist_cons_self _ _) _
  have hlabels := (hsublist.map Prod.fst).append_right s.unmade |>.append_right s.todo
  refine ⟨hi.bounded, ?_, hi.nodup.sublist hlabels, fun j' h => hi.known j' (hlabels.subset h), hi.table,
    fun p hp => hi.split p (hsublist.subset hp), hi.untouched, fun j' hj' hnot => ?_⟩
  · have := hi.children
    rw [hrun, List.length_append, List.length_cons] at this
    show (before ++ after).length + (s.ended + 1) ≤ s.nWorkers + s.strangers
    rw [List.length_append]
    omega
  · obtain ⟨hmem, htodo, hunmade, hkilled⟩ := hj'
    by_cases he : j' = j
    · subst he
      obtain rfl := hleft.resolve_right hkilled
      have := hi.split (j', []) (hrun ▸ List.mem_append_right _ List.mem_cons_self)
      rwa [List.append_nil] at this
    · refine hi.complete j' ⟨hmem, htodo, hunmade, fun h => hkilled (hsub j' h)⟩ fun h => hnot ?_
      rw [hrun, List.map_append, List.map_cons] at h
      rw [List.map_append]
      rcases List.mem_append.mp h with h | h
      · exact List.mem_append_left _ h
      · exact List.mem_append_right _ ((List.mem_cons.mp h).resolve_left he)

theorem Inv.made (hi : Inv work owner maxWorkers jobs table s done) (hlt : s.nWorkers < maxWorkers) {j : ι}
    {todo : List ι} (htodo : s.todo = j :: todo) :
    Inv work owner maxWorkers jobs table
      { s with todo := todo, running := s.running ++ [(j, work j)], nWorkers := s.nWorkers + 1 } done := by
  have hlabels : ((s.running ++ [(j, work j)]).map Prod.fst ++ s.unmade ++ todo).Perm
      (s.running.map Prod.fst ++ s.unmade ++ s.todo) := by
    rw [htodo, List.map_append, List.map_singleton, List.append_assoc, List.append_assoc, List.append_assoc]
    have hmiddle : (s.unmade ++ j :: todo).Perm (j :: (s.unmade ++ todo)) := List.perm_middle
    exact hmiddle.symm.append_left _
  have hnone : done j = [] := hi.untouched j (.inr (List.mem_append_right _ (htodo ▸ List.mem_cons_self)))
  refine ⟨hlt, ?_, hlabels.nodup_iff.mpr hi.nodup, fun j' h => hi.known j' (hlabels.mem_iff.mp h), hi.table,
    fun p hp => ?_, fun j' h => hi.untouched j' ?_, fun j' hj' hnot => ?_⟩
  · have := hi.children
    show (s.running ++ [(j, work j)]).length + s.ended ≤ s.nWorkers + 1 + s.strangers
    rw [List.length_append, List.length_singleton]
    omega
  · rcases List.mem_append.mp hp with hp | hp
    · exact hi.split p hp
    · rw [List.mem_singleton.mp hp, hnone, List.nil_append]
  · refine h.imp_right fun h => ?_
    rw [htodo]
    exact (List.mem_append.mp h).elim (List.mem_append_left _) fun h =>
      List.mem_append_right _ (List.mem_cons_of_mem _ h)
  · rw [List.map_append, List.mem_append, not_or, List.map_singleton, List.mem_singleton] at hnot
    obtain ⟨hmem, htodo', hunmade, hkilled⟩ := hj'
    refine hi.complete j' ⟨hmem, fun h => ?_, hunmade, hkilled⟩ hnot.1
    rw [htodo] at h
    exact (List.mem_cons.mp h).elim hnot.2 htodo'

theorem Inv.unmade (hi : Inv work owner maxWorkers jobs table s done) (hlt : s.nWorkers < maxWorkers) {j : ι}
    {todo : List ι} (htodo : s.todo = j :: todo) :
    Inv work owner maxWorkers jobs table
      { s with todo := todo, unmade := s.unmade ++ [j], nWorkers := s.nWorkers + 1 } done := by
  have hsame : s.unmade ++ [j] ++ todo = s.unmade ++ s.todo := by
    rw [htodo, List.append_assoc, List.singleton_append]
  have hlabels : s.running.map Prod.fst ++ (s.unmade ++ [j]) ++ todo =
      s.running.map Prod.fst ++ s.unmade ++ s.todo := by
    rw [List.append_assoc, hsame, List.append_assoc]
  refine ⟨hlt, ?_, ?_, ?_, hi.table, hi.split, fun j' h => hi.untouched j' (hsame ▸ h), fun j' hj' hnot => ?_⟩
  · have := hi.children
    show s.running.length + s.ended ≤ s.nWorkers + 1 + s.strangers
    omega
  · show (s.running.map Prod.fst ++ (s.unmade ++ [j]) ++ todo).Nodup
    exact hlabels ▸ hi.nodup
  · show ∀ j' ∈ s.running.map Prod.fst ++ (s.unmade ++ [j]) ++ todo, j' ∈ jobs
    exact hlabels ▸ hi.known
  · obtain ⟨hmem, htodo', hunmade, hkilled⟩ := hj'
    rw [List.mem_append, not_or, List.mem_singleton] at hunmade
    refine hi.complete j' ⟨hmem, fun h => ?_, hunmade.1, hkilled⟩ hnot
    rw [htodo] at h
    exact (List.mem_cons.mp h).elim hunmade.2 htodo'

/-- What a step does to the numbers alone leaves the jobs as they are. -/
theorem Inv.counts (hi : Inv work owner maxWorkers jobs table s done) {ended others nWorkers strangers : ℕ}
    (thrown : Bool) (hb : nWorkers ≤ maxWorkers) (hc : s.running.length + ended ≤ nWorkers + strangers) :
    Inv work owner maxWorkers jobs table
      { s with ended := ended, others := others, nWorkers := nWorkers, thrown := thrown, strangers := strangers }
      done :=
  ⟨hb, hc, hi.nodup, hi.known, hi.table, hi.split, hi.untouched, hi.complete⟩

theorem Inv.step [DecidableEq ι] (hpos : 0 < maxWorkers) (hi : Inv work owner maxWorkers jobs table s done)
    (hlocal : ∀ j ∈ jobs, ∀ u ∈ work j, Local owner j u) (h : step work maxWorkers s a = some s') :
    ∃ done, Inv work owner maxWorkers jobs table s' done := by
  have hc := hi.children
  have hb := hi.bounded
  cases moved h with
  | throws => exact ⟨done, hi.counts true hb hc⟩
  | made j todo hlt htodo => exact ⟨done, hi.made hlt htodo⟩
  | unmade j todo hlt htodo => exact ⟨done, hi.unmade hlt htodo⟩
  | update i j u left before after hrun => exact ⟨_, hi.update hlocal hrun⟩
  | exit i j before after hrun => exact ⟨done, hi.gone hrun (fun _ h => h) (.inl rfl)⟩
  | kill i j left before after hrun =>
    exact ⟨done, hi.gone hrun (fun _ h => List.mem_append_left _ h)
      (.inr (List.mem_append_right _ List.mem_cons_self))⟩
  | reap hwaits hended =>
    have := hwaits.nWorkers_pos hpos
    exact ⟨done, hi.counts s.thrown (by omega) (by omega)⟩
  | reapOther hwaits hothers =>
    have := hwaits.nWorkers_pos hpos
    exact ⟨done, hi.counts s.thrown (by omega) (by omega)⟩
  | noChild hwaits hlt hrun hended =>
    have hnone : s.running.length + s.ended = 0 := by rw [hrun, hended]; rfl
    exact ⟨done, hi.counts s.thrown (Nat.zero_le _) (by omega)⟩
  | arrive => exact ⟨done, hi.counts s.thrown hb hc⟩
  | leave => exact ⟨done, hi.counts s.thrown hb hc⟩
  | taken hended => exact ⟨done, hi.counts s.thrown hb (by omega)⟩

/-- Once no child is left, the keys of the jobs whose child was neither missed nor killed are as those jobs
alone make them, and the keys of jobs without a child are as they were. -/
theorem Inv.table_eq (hi : Inv work owner maxWorkers jobs table s done) (hrun : s.running = []) (k : κ) :
    (s.Served jobs (owner k) → s.table k = applied (work (owner k)) table k) ∧
      (owner k ∉ jobs ∨ owner k ∈ s.unmade ++ s.todo → s.table k = table k) := by
  rw [hi.table k]
  constructor
  · intro hserved
    rw [hi.complete _ hserved (by rw [hrun]; exact List.not_mem_nil)]
  · intro hnone
    rw [hi.untouched _ hnone]
    rfl

/-! ### Ends -/

/-- How many steps are left. -/
def potential (work : ι → List (Update κ ε)) (s : Workers ι κ ε) : ℕ :=
  (s.todo.map fun j => (work j).length + 4).sum + (s.running.map fun p => p.2.length + 2).sum +
    s.ended + s.others + (if s.nWorkers = 0 then 0 else 1) + if s.thrown then 0 else 1

/-- Every step brings the run nearer to its end, those aside by which others start a child. -/
theorem potential_step (hpos : 0 < maxWorkers) (h : step work maxWorkers s a = some s') (ha : a ≠ .arrive) :
    potential work s' < potential work s := by
  have hflag : ∀ n : ℕ, (if n = 0 then 0 else 1) ≤ 1 := fun n => by split_ifs <;> omega
  have hless : ∀ n : ℕ, (if n - 1 = 0 then 0 else 1) ≤ (if n = 0 then 0 else 1) := fun n => by
    split_ifs <;> omega
  cases moved h with
  | throws _ hthrown =>
    simp only [potential, hthrown, if_true, Bool.false_eq_true, if_false]
    omega
  | made j todo hlt htodo =>
    have := hflag (s.nWorkers + 1)
    simp only [potential, htodo, List.map_append, List.map_cons, List.map_nil, List.sum_append, List.sum_cons,
      List.sum_nil]
    omega
  | unmade j todo hlt htodo =>
    have := hflag (s.nWorkers + 1)
    simp only [potential, htodo, List.map_cons, List.sum_cons]
    omega
  | update i j u left before after hrun =>
    simp only [potential, hrun, List.map_append, List.map_cons, List.sum_append, List.sum_cons, List.length_cons]
    omega
  | exit i j before after hrun =>
    simp only [potential, hrun, List.map_append, List.map_cons, List.sum_append, List.sum_cons, List.length_nil]
    omega
  | kill i j left before after hrun =>
    simp only [potential, hrun, List.map_append, List.map_cons, List.sum_append, List.sum_cons]
    omega
  | reap hwaits hended =>
    have := hless s.nWorkers
    simp only [potential]
    omega
  | reapOther hwaits hothers =>
    have := hless s.nWorkers
    simp only [potential]
    omega
  | noChild hwaits hlt hrun hended =>
    have hn : s.nWorkers ≠ 0 := Nat.ne_of_gt (hwaits.nWorkers_pos hpos)
    simp only [potential, if_neg hn, if_true]
    omega
  | arrive => exact absurd rfl ha
  | leave hothers =>
    simp only [potential]
    omega
  | taken hended =>
    simp only [potential]
    omega

/-- As long as a child is running or the parent is at work, some step can be taken without anything failing
and without anyone else: others' children end as well. -/
theorem exists_step (h : s.running ≠ [] ∨ s.thrown = false ∧ ¬s.Finished) :
    ∃ a s', a.smooth = true ∧ step work maxWorkers s a = some s' := by
  cases hrun : s.running with
  | cons p running =>
    obtain ⟨j, left⟩ := p
    cases left with
    | nil => exact ⟨.exit 0, _, rfl, by rw [step, hrun]; rfl⟩
    | cons u left => exact ⟨.update 0, _, rfl, by rw [step, hrun]; rfl⟩
  | nil =>
    obtain ⟨hthrown, hnot⟩ := h.resolve_left fun hne => hne hrun
    by_cases hwaits : s.Waits maxWorkers
    · by_cases hended : 0 < s.ended
      · exact ⟨.reap, _, rfl, if_pos ⟨hwaits, hended⟩⟩
      · by_cases hothers : 0 < s.others
        · exact ⟨.reapOther, _, rfl, if_pos ⟨hwaits, hothers⟩⟩
        · have hnone : s.Waits maxWorkers ∧ s.running = [] ∧ s.ended = 0 ∧ s.others = 0 :=
            ⟨hwaits, hrun, by omega, by omega⟩
          by_cases hmax : maxWorkers ≤ s.nWorkers
          · exact ⟨.noChild, _, rfl, (if_pos hnone).trans (if_pos hmax)⟩
          · exact ⟨.noChild, _, rfl, (if_pos hnone).trans (if_neg hmax)⟩
    · have hlt : s.nWorkers < maxWorkers := Nat.lt_of_not_le fun hle => hwaits ⟨hthrown, .inl hle⟩
      cases htodo : s.todo with
      | nil =>
        have h0 : s.nWorkers = 0 := by
          by_contra hne
          exact hwaits ⟨hthrown, .inr ⟨htodo, Nat.pos_of_ne_zero hne⟩⟩
        exact absurd ⟨hthrown, htodo, h0⟩ hnot
      | cons j todo =>
        have hstarts : ¬¬s.Starts maxWorkers := not_not.mpr ⟨hthrown, hlt⟩
        exact ⟨.fork true, _, rfl, by rw [step, htodo]; exact (if_neg hstarts).trans (if_pos rfl)⟩

/-- A run of the parent: never more children than allowed and as many as it has waited for of others; no more
steps than the jobs have, but for what others do; always a next step until the parent has come to its end and
its children too; when it returns without having waited for others' children, its own are gone; and the table
is as the jobs alone make it. -/
theorem run_spec [DecidableEq ι] (hpos : 0 < maxWorkers) (hjobs : jobs.Nodup)
    (hlocal : ∀ j ∈ jobs, ∀ u ∈ work j, Local owner j u) {as : List WorkersAct}
    (h : (machine work maxWorkers jobs others table).Steps (fun _ _ => True) (started jobs others table) as s) :
    s.running.length + s.ended ≤ maxWorkers + s.strangers ∧
      as.length ≤ (jobs.map fun j => (work j).length + 4).sum + others + 1 + 2 * as.count .arrive ∧
      (s.running = [] ∧ (s.thrown = true ∨ s.Finished) ∨
        ∃ a s', a.smooth = true ∧ Workers.step work maxWorkers s a = some s') ∧
      (s.Finished → s.strangers = 0 → s.running = [] ∧ s.ended = 0) ∧
      (s.running = [] → ∀ k,
        (s.Served jobs (owner k) → s.table k = applied (work (owner k)) table k) ∧
        (owner k ∉ jobs ∨ owner k ∈ s.unmade ++ s.todo → s.table k = table k)) := by
  have hinv : ∃ done, Inv work owner maxWorkers jobs table s done := by
    refine (h.reachable rfl).invariant (I := fun t => ∃ done, Inv work owner maxWorkers jobs table t done)
      (fun t ht => ?_) fun t a t' ht _ hstep => ?_
    · obtain rfl : t = started jobs others table := ht
      exact ⟨_, inv_started hjobs⟩
    · obtain ⟨done, hdone⟩ := ht
      exact hdone.step hpos hlocal hstep
  obtain ⟨done, hdone⟩ := hinv
  have hb := hdone.bounded
  have hc := hdone.children
  refine ⟨by omega, ?_, ?_, fun hfin hown => ?_, fun hrun k => hdone.table_eq hrun k⟩
  · have hle := h.potential (potential work) (· == .arrive) rfl
      (fun t a u _ hstep ha => potential_step hpos hstep fun he => by simp [he] at ha)
      fun t a u _ hstep ha => by
        obtain rfl : a = .arrive := eq_of_beq ha
        cases hstep
        simp only [potential]
        omega
    have hsplit := List.length_eq_countP_add_countP (l := as) fun a : WorkersAct => a == .arrive
    have h0 : potential work (started jobs others table) =
        (jobs.map fun j => (work j).length + 4).sum + others + 1 := by
      simp [potential, started]
    have hrest : as.countP (fun a => !(a == .arrive)) = as.countP fun a => decide ¬(a == .arrive) = true :=
      List.countP_congr fun a _ => by simp
    rw [List.count]
    omega
  · by_cases hover : s.running = [] ∧ (s.thrown = true ∨ s.Finished)
    · exact .inl hover
    · refine .inr (exists_step ?_)
      rw [not_and_or, not_or, Bool.not_eq_true] at hover
      exact hover
  · have := hfin.2.2
    exact ⟨List.length_eq_zero_iff.mp (by omega), by omega⟩

/-- A child that is left alone does its job. -/
theorem run_updates {j : ι} {us : List (Update κ ε)} {rest : List (ι × List (Update κ ε))}
    (h : s.running = (j, us) :: rest) :
    (machine work maxWorkers jobs others table).run s (List.replicate us.length (.update 0)) =
      some { s with running := (j, []) :: rest, table := applied us s.table } := by
  induction us generalizing s with
  | nil =>
    rw [← h]
    rfl
  | cons u us ih =>
    have hstep : Workers.step work maxWorkers s (.update 0) =
        some { s with running := (j, us) :: rest, table := u s.table } := by
      rw [Workers.step, h]
      rfl
    exact (congrArg (Option.bind · _) hstep).trans (ih rfl)

end Runs

end Workers

end GramsTof.Lib
