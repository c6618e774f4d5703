import GramsTof.Daq.Manager
import Mathlib.Data.List.Forall2

/-! The resources of the DAQ manager over any sequence of start, stop and reset
commands. Each start calls `initialize` again, and nothing is released before the
destructor. -/

namespace GramsTof.Daq

open Lib

/-- What the command table does with the manager. -/
inductive Event where
  | start (a : Answers)
  /-- `completed` when the stop script is found. -/
  | stop (completed : Bool)
  | reset (completed : Bool) (a : Answers)
  /-- The DAQ thread returns on its own. -/
  | threadEnds

/-- The manager and `daqRunning_`. -/
structure Session where
  manager : Manager
  daqRunning : Bool

namespace Session

def start (a : Answers) (s : Session) : Session :=
  if s.daqRunning then s
  else ⟨(s.manager.initializeDaq a).1, (s.manager.initializeDaq a).2 = .returned true⟩

def stop (completed : Bool) (s : Session) : Session :=
  if completed then { s with daqRunning := false } else s

def handle (s : Session) : Event → Session
  | .start a => s.start a
  | .stop completed => s.stop completed
  | .reset completed a => (s.stop completed).start a
  | .threadEnds => { s with daqRunning := false }

def new (daqType : String) (daqCards : List String) : Session := ⟨.new daqType daqCards, false⟩

def run (s : Session) (es : List Event) : Session := es.foldl handle s

end Session

/-- What a successful `initialize` owes, from `m` to `m'`: one open card for each path, a frame
server on exactly these cards, and nothing left of the earlier calls. -/
structure Clean (m m' : Manager) : Prop where
  cards : m'.daqType = "PFP_KX7" →
    m'.daqCards.Forall₂ (fun n path => m'.ledger.Live n (.card path)) m'.daqCardList ∧
      m'.daqCards.Nodup
  server : ∃ n x, m'.frameServer = some n ∧ m'.ledger.Live n x ∧
    (m'.daqType = "PFP_KX7" → x = .daqFrameServer m'.daqCards m'.daqCardPortBits)
  earlier : ∀ n, n < m.ledger.next → m'.ledger.released.count n = 1

/-- A start gets as far as the shared memory. -/
def Answers.allocates (a : Answers) : Bool := a.listening && a.allocated

def Event.allocates : Event → Bool
  | .start a => a.allocates
  | .reset _ a => a.allocates
  | _ => false

/-! ### What `initialize` does -/

namespace Manager

variable {m m' : Manager} {a : Answers} {opened : ℕ → Bool} {n : ℕ} {paths : List String}

theorem configure_length (h : m.daqCardList.length ≤ 2) : m.configure.daqCardList.length ≤ 2 := by
  change (if m.daqCardList = [] then ["/dev/psdaq0"] else m.daqCardList).length ≤ 2
  split_ifs
  · exact Nat.le_succ 1
  · exact h

/-- The members that opening cards leaves alone. -/
theorem openCards_frame (opened : ℕ → Bool) (n : ℕ) (m : Manager) (paths : List String) :
    (openCards opened n m paths).1.daqType = m.daqType ∧
      (openCards opened n m paths).1.daqCardList = m.daqCardList ∧
      (openCards opened n m paths).1.shmPtr = m.shmPtr ∧
      m.ledger.Grows (openCards opened n m paths).1.ledger := by
  induction paths generalizing n m with
  | nil => exact ⟨rfl, rfl, rfl, .refl _⟩
  | cons path rest ih =>
    rw [openCards]
    split_ifs
    · obtain ⟨htype, hlist, hptr, hgrows⟩ := ih (n + 1) (m.openCard path)
      exact ⟨htype, hlist, hptr, (m.ledger.grows_create _).trans hgrows⟩
    · exact ⟨rfl, rfl, rfl, .refl _⟩

/-- When every card opens, the new members name one live card for each path. -/
theorem openCards_cards (hr : m.ledger.released = [])
    (h : openCards opened n m paths = (m', true)) :
    m'.daqCards = m.daqCards ++ List.range' m.ledger.next paths.length ∧
      m'.ledger.next = m.ledger.next + paths.length ∧
      (List.range' m.ledger.next paths.length).Forall₂
        (fun n path => m'.ledger.Live n (.card path)) paths := by
  induction paths generalizing n m with
  | nil =>
    cases h
    exact ⟨(List.append_nil _).symm, rfl, .nil⟩
  | cons path rest ih =>
    rw [openCards] at h
    by_cases ho : opened n = true
    · rw [if_pos ho] at h
      obtain ⟨hcards, hnext, hlive⟩ := ih (m := m.openCard path) hr h
      have hgrows := (openCards_frame opened (n + 1) (m.openCard path) rest).2.2.2
      rw [h] at hgrows
      have hcard : (m.openCard path).ledger.Live m.ledger.next (.card path) :=
        Ledger.live_create (by rw [hr]; exact List.not_mem_nil)
      have hone : (m.openCard path).ledger.next = m.ledger.next + 1 := Ledger.next_create _ _
      rw [hone] at hcards hnext hlive
      rw [List.length_cons, List.range'_succ]
      refine ⟨?_, by omega, .cons (hcard.grows hgrows) hlive⟩
      rw [hcards, openCard, List.append_assoc, List.singleton_append]
    · rw [if_neg ho] at h
      cases h

theorem buildServer_frame (a : Answers) (m : Manager) :
    (m.buildServer a).1.daqCardList = m.daqCardList ∧
      m.ledger.Grows (m.buildServer a).1.ledger := by
  unfold buildServer
  split_ifs
  · exact ⟨rfl, m.ledger.grows_create _⟩
  · exact ⟨rfl, .refl _⟩
  · obtain ⟨-, hlist, -, hgrows⟩ := openCards_frame a.opened 0 m m.daqCardList
    split <;> rename_i hopen <;> rw [hopen] at hlist hgrows
    · exact ⟨hlist, hgrows.trans (Ledger.grows_create _ _)⟩
    · exact ⟨hlist, hgrows⟩
  · exact ⟨rfl, .refl _⟩

/-- A start that gets as far as the shared memory goes on to the frame server. -/
theorem initializeDaq_allocates (ha : a.allocates = true) (hm : m.daqCardList.length ≤ 2) :
    m.initializeDaq a = m.configure.allocateSharedMemory.buildServer a := by
  obtain ⟨hl, hs⟩ := Bool.and_eq_true_iff.mp ha
  rw [initializeDaq, if_neg (by omega), if_pos hl, if_pos hs]

/-- Any other start leaves the resources alone and fails. -/
theorem initializeDaq_fails (ha : a.allocates = false) :
    (m.initializeDaq a).1.ledger = m.ledger ∧ (m.initializeDaq a).1.daqCards = m.daqCards ∧
      (m.initializeDaq a).2 ≠ .returned true := by
  unfold initializeDaq
  split_ifs with hm hl hs
  · exact ⟨rfl, rfl, by simp⟩
  · rw [Answers.allocates, hl, hs] at ha
    cases ha
  · exact ⟨rfl, rfl, by simp⟩
  · exact ⟨rfl, rfl, by simp⟩

theorem initializeDaq_length (h : m.daqCardList.length ≤ 2) :
    (m.initializeDaq a).1.daqCardList.length ≤ 2 := by
  unfold initializeDaq
  split_ifs
  · exact h
  · rw [(buildServer_frame a _).1]
    exact configure_length h
  · exact configure_length h
  · exact configure_length h

/-- Without cards from earlier calls the frame server is built on exactly the configured ones. -/
theorem buildServer_success (hr : m.ledger.released = []) (hc : m.daqCards = [])
    (h : m.buildServer a = (m', .returned true)) :
    (m'.daqType = "PFP_KX7" →
      m'.daqCards.Forall₂ (fun n path => m'.ledger.Live n (.card path)) m'.daqCardList ∧
        m'.daqCards.Nodup) ∧
    ∃ n x, m'.frameServer = some n ∧ m'.ledger.Live n x ∧
      (m'.daqType = "PFP_KX7" → x = .daqFrameServer m'.daqCards m'.daqCardPortBits) := by
  rcases buildServer_returned h with ⟨hgbe, rfl⟩ | ⟨-, m₁, hopen, rfl⟩
  · have hother : m.daqType ≠ "PFP_KX7" := by rw [hgbe]; decide
    exact ⟨fun ht => absurd ht hother, _, _, rfl, Ledger.live_create (by simp [hr]),
      fun ht => absurd ht hother⟩
  · obtain ⟨-, hlist, -, hgrows⟩ := openCards_frame a.opened 0 m m.daqCardList
    obtain ⟨hcards, -, hlive⟩ := openCards_cards hr hopen
    rw [hopen] at hlist hgrows
    rw [hc, List.nil_append] at hcards
    refine ⟨fun _ => ?_, _, _, rfl,
      Ledger.live_create (by rw [hgrows.released, hr]; exact List.not_mem_nil), fun _ => rfl⟩
    change m₁.daqCards.Forall₂ _ m₁.daqCardList ∧ m₁.daqCards.Nodup
    rw [hcards, hlist]
    exact ⟨hlive.imp fun _ _ h => h.grows (Ledger.grows_create _ _), List.nodup_range'⟩

theorem cleanup_released (m : Manager) :
    m.cleanup.ledger.released =
      m.ledger.released ++ (m.frameServer.toList ++ m.daqCards ++ m.shmPtr.toList) := by
  rw [cleanup, Ledger.foldl_release]

/-- The destructor after a first frame server, which was built behind the shared memory. -/
theorem buildServer_cleanup (hr : m.ledger.released = []) (hc : m.daqCards = [])
    (hptr : m.shmPtr = some 0) (hnext : m.ledger.next = 1)
    (h : m.buildServer a = (m', .returned true)) :
    m'.cleanup.ledger.released.Perm (List.range m'.ledger.next) := by
  rcases buildServer_returned h with ⟨-, rfl⟩ | ⟨-, m₁, hopen, rfl⟩
  · rw [cleanup_released]
    simp only [createFrameServer, Ledger.released_create, Ledger.next_create, hr, hc, hptr, hnext]
    decide
  · obtain ⟨-, -, hptr', hgrows⟩ := openCards_frame a.opened 0 m m.daqCardList
    obtain ⟨hcards, hnext', -⟩ := openCards_cards hr hopen
    rw [hopen] at hptr' hgrows
    rw [hc, hnext, List.nil_append] at hcards
    have hrel : m₁.ledger.released = [] := hgrows.released.trans hr
    have hptr₁ : m₁.shmPtr = some 0 := hptr'.trans hptr
    rw [cleanup_released]
    simp only [createFrameServer, Ledger.released_create, Ledger.next_create, hrel, hcards,
      hptr₁, hnext', hnext, Option.toList_some, List.nil_append]
    rw [Nat.add_comm 1, List.range_succ, List.range_eq_range', List.range'_succ]
    -- the server is the youngest resource and the shared memory the oldest
    have hback : ([m.daqCardList.length + 1] ++ (List.range' 1 m.daqCardList.length ++ [0])).Perm
        (List.range' 1 m.daqCardList.length ++ [0] ++ [m.daqCardList.length + 1]) :=
      List.perm_append_comm
    rw [← List.append_assoc] at hback
    refine hback.trans (.append_right _ ?_)
    exact List.perm_append_singleton 0 _

end Manager

/-! ### Over a whole session -/

/-- As long as nothing has been created there are no cards and no thread; nothing is ever
released. -/
structure Session.Fresh (s : Session) : Prop where
  released : s.manager.ledger.released = []
  cards : s.manager.ledger.created = [] → s.manager.daqCards = []
  idle : s.manager.ledger.created = [] → s.daqRunning = false

namespace Session

variable {s : Session} {a : Answers} {e : Event}

theorem fresh_new (daqType : String) (daqCards : List String) : (new daqType daqCards).Fresh :=
  ⟨rfl, fun _ => rfl, fun _ => rfl⟩

theorem Fresh.stop (h : s.Fresh) (completed : Bool) : (s.stop completed).Fresh := by
  unfold Session.stop
  split_ifs
  · exact ⟨h.released, h.cards, fun _ => rfl⟩
  · exact h

/-- The shared memory is the first resource of a start. -/
theorem created_of_allocates (m : Manager) (ha : a.allocates = true) (hm : m.daqCardList.length ≤ 2) :
    (m.initializeDaq a).1.ledger.created ≠ [] := by
  rw [Manager.initializeDaq_allocates ha hm]
  have hgrows := (Manager.buildServer_frame a m.configure.allocateSharedMemory).2.next_le
  intro hempty
  rw [Ledger.next, Ledger.next, hempty] at hgrows
  simp [Manager.allocateSharedMemory, Ledger.create] at hgrows

theorem initializeDaq_grows (m : Manager) (a : Answers) :
    m.ledger.Grows (m.initializeDaq a).1.ledger := by
  unfold Manager.initializeDaq
  split_ifs
  · exact .refl _
  · have hgrows := (Manager.buildServer_frame a m.configure.allocateSharedMemory).2
    exact (m.ledger.grows_create .sharedMemory).trans hgrows
  · exact .refl _
  · exact .refl _

theorem Fresh.start (h : s.Fresh) (hl : s.manager.daqCardList.length ≤ 2) (a : Answers) :
    (s.start a).Fresh := by
  unfold Session.start
  split_ifs
  · exact h
  · have hgrows := initializeDaq_grows s.manager a
    cases ha : a.allocates with
    | true =>
      have hcreated := created_of_allocates s.manager ha hl
      exact ⟨hgrows.released.trans h.released, fun he => absurd he hcreated,
        fun he => absurd he hcreated⟩
    | false =>
      obtain ⟨hledger, hcards, hfail⟩ := Manager.initializeDaq_fails (m := s.manager) ha
      refine ⟨hgrows.released.trans h.released, fun he => ?_, fun _ => decide_eq_false hfail⟩
      rw [hledger] at he
      exact hcards.trans (h.cards he)

theorem start_length (hl : s.manager.daqCardList.length ≤ 2) (a : Answers) :
    (s.start a).manager.daqCardList.length ≤ 2 := by
  unfold Session.start
  split_ifs
  · exact hl
  · exact Manager.initializeDaq_length hl

theorem stop_manager (s : Session) (completed : Bool) : (s.stop completed).manager = s.manager := by
  unfold Session.stop
  split_ifs <;> rfl

/-- Something exists after a start exactly when it existed before or the start allocates. -/
theorem start_created (h : s.Fresh) (hl : s.manager.daqCardList.length ≤ 2) (a : Answers) :
    (s.start a).manager.ledger.created = [] ↔
      s.manager.ledger.created = [] ∧ a.allocates = false := by
  unfold Session.start
  split_ifs with hrun
  · constructor
    · intro he
      rw [h.idle he] at hrun
      cases hrun
    · exact And.left
  · cases ha : a.allocates with
    | true => simpa using created_of_allocates s.manager ha hl
    | false => simp [(Manager.initializeDaq_fails (m := s.manager) ha).1]

theorem handle_fresh (h : s.Fresh) (hl : s.manager.daqCardList.length ≤ 2) (e : Event) :
    (s.handle e).Fresh ∧ (s.handle e).manager.daqCardList.length ≤ 2 ∧
      ((s.handle e).manager.ledger.created = [] ↔
        s.manager.ledger.created = [] ∧ e.allocates = false) := by
  cases e with
  | start a => exact ⟨h.start hl a, start_length hl a, start_created h hl a⟩
  | stop completed =>
    refine ⟨h.stop completed, ?_, ?_⟩
    · rw [handle, stop_manager]
      exact hl
    · rw [handle, stop_manager]
      exact (and_iff_left rfl).symm
  | reset completed a =>
    have hl' : (s.stop completed).manager.daqCardList.length ≤ 2 := by rwa [stop_manager]
    have hcreated := start_created (h.stop completed) hl' a
    rw [stop_manager] at hcreated
    exact ⟨(h.stop completed).start hl' a, start_length hl' a, hcreated⟩
  | threadEnds => exact ⟨⟨h.released, h.cards, fun _ => rfl⟩, hl, (and_iff_left rfl).symm⟩

theorem run_fresh (h : s.Fresh) (hl : s.manager.daqCardList.length ≤ 2) (es : List Event) :
    (s.run es).Fresh ∧ ((s.run es).manager.ledger.created = [] ↔
      s.manager.ledger.created = [] ∧ ∀ e ∈ es, e.allocates = false) := by
  induction es generalizing s with
  | nil => exact ⟨h, by simp [run]⟩
  | cons e es ih =>
    obtain ⟨hfresh, hlength, hcreated⟩ := handle_fresh h hl e
    obtain ⟨hrun, hempty⟩ := ih hfresh hlength
    refine ⟨hrun, hempty.trans ?_⟩
    rw [hcreated, List.forall_mem_cons, and_assoc]

/-- With more than two cards configured nothing ever changes. -/
theorem run_refused (hl : 2 < s.manager.daqCardList.length) (es : List Event) :
    (s.run es).manager = s.manager := by
  have hstart (s : Session) (hl : 2 < s.manager.daqCardList.length) (a : Answers) :
      (s.start a).manager = s.manager := by
    unfold Session.start
    split_ifs
    · rfl
    · rw [Manager.initializeDaq, if_pos hl]
  have hhandle (s : Session) (hl : 2 < s.manager.daqCardList.length) (e : Event) :
      (s.handle e).manager = s.manager := by
    cases e with
    | start a => exact hstart s hl a
    | stop completed => exact stop_manager s completed
    | reset completed a =>
      have hstop := stop_manager s completed
      exact (hstart _ (hstop ▸ hl) a).trans hstop
    | threadEnds => rfl
  induction es generalizing s with
  | nil => rfl
  | cons e es ih =>
    have hsame := hhandle s hl e
    exact (ih (hsame ▸ hl)).trans hsame

theorem bounded_of_run {es : List Event} (h : (s.run es).manager.daqCardList.length ≤ 2) :
    s.manager.daqCardList.length ≤ 2 := by
  by_contra hover
  rw [run_refused (by omega) es] at h
  exact hover h

end Session

/-- After any sequence of commands, a successful `initialize` leaves the resources as it should
exactly when no earlier start got as far as the shared memory. -/
theorem initializeDaq_clean_iff (daqType : String) (daqCards : List String) (es : List Event)
    (a : Answers) (m' : Manager)
    (h : ((Session.new daqType daqCards).run es).manager.initializeDaq a = (m', .returned true)) :
    Clean ((Session.new daqType daqCards).run es).manager m' ↔ ∀ e ∈ es, e.allocates = false := by
  generalize hs : Session.new daqType daqCards = s at h ⊢
  have hnew : s.Fresh := hs ▸ Session.fresh_new daqType daqCards
  have hempty : s.manager.ledger.created = [] := by rw [← hs]; rfl
  obtain ⟨hlast, hbuild⟩ := Manager.initializeDaq_returned h
  have hl := Session.bounded_of_run hlast
  obtain ⟨hfresh, hcreated⟩ := Session.run_fresh hnew hl es
  have hgrows := Session.initializeDaq_grows (s.run es).manager a
  rw [h] at hgrows
  rw [← (hcreated.trans (and_iff_right hempty))]
  constructor
  · intro hclean
    by_contra hne
    have hone := hclean.earlier 0 (List.length_pos_iff.mpr hne)
    rw [hgrows.released, hfresh.released] at hone
    cases hone
  · intro hnone
    obtain ⟨hcards, hserver⟩ := Manager.buildServer_success
      (m := (s.run es).manager.configure.allocateSharedMemory) hfresh.released
      (hfresh.cards hnone) hbuild
    exact ⟨hcards, hserver, fun n hn => by rw [Ledger.next, hnone] at hn; cases hn⟩

/-- The destructor then releases everything exactly once. -/
theorem cleanup_settles (daqType : String) (daqCards : List String) (es : List Event) (a : Answers)
    (m' : Manager) (hes : ∀ e ∈ es, e.allocates = false)
    (h : ((Session.new daqType daqCards).run es).manager.initializeDaq a = (m', .returned true)) :
    m'.cleanup.ledger.released.Perm (List.range m'.ledger.next) := by
  obtain ⟨hlast, hbuild⟩ := Manager.initializeDaq_returned h
  have hl := Session.bounded_of_run hlast
  obtain ⟨hfresh, hcreated⟩ := Session.run_fresh (Session.fresh_new daqType daqCards) hl es
  have hnone := hcreated.mpr ⟨rfl, hes⟩
  have hnext : ((Session.new daqType daqCards).run es).manager.ledger.next = 0 := by
    rw [Ledger.next, hnone, List.length_nil]
  refine Manager.buildServer_cleanup
    (m := ((Session.new daqType daqCards).run es).manager.configure.allocateSharedMemory)
    hfresh.released (hfresh.cards hnone) ?_ ?_ hbuild
  · exact congrArg some hnext
  · rw [Manager.allocateSharedMemory, Ledger.next_create]
    exact congrArg (· + 1) hnext

theorem initializeDaq_clean_iff_first :
    Clean (Manager.new "PFP_KX7" ["/dev/psdaq0"])
      ((Manager.new "PFP_KX7" ["/dev/psdaq0"]).initializeDaq allDone).1 :=
  (initializeDaq_clean_iff "PFP_KX7" ["/dev/psdaq0"] [] allDone _ (by decide)).mpr (by simp)

/-- A second start after a stop: the card of the first is still there. -/
theorem not_initializeDaq_clean :
    ¬ ∀ (daqType : String) (daqCards : List String) (es : List Event) (a : Answers) (m' : Manager),
      ((Session.new daqType daqCards).run es).manager.initializeDaq a = (m', .returned true) →
        Clean ((Session.new daqType daqCards).run es).manager m' := by
  intro h
  have hclean := h "PFP_KX7" ["/dev/psdaq0"] [.start allDone, .stop true] allDone _
    (Prod.ext rfl (by decide))
  exact absurd (hclean.cards rfl).1.length_eq (by decide)

end GramsTof.Daq
