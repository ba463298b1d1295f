import HornSaturation.Proofs.Inference.Enumeration
import Mathlib.Data.Finset.Lattice.Lemmas

/-!
# Level saturation by recollection

A search can also remember every candidate that it has ever queued, and begin a level with the
combinations that it does not remember. It removes candidates from the front of its queue until one
is ready, and begins a level whenever the queue is empty, until that adds nothing. On a store that
changes in any way between its calls, this search issues the same candidates as one that only knows
how many units were stored when its level began, and no call begins two levels.
-/

namespace HornSaturation

/-- The state of a search that remembers what it has queued. -/
structure Recollection where
  /-- The candidates of the current level that have not been issued. -/
  queue : List Candidate := []
  /-- All candidates ever queued. -/
  seen : Finset Candidate := ∅
  /-- The number of levels begun so far. -/
  level : Nat := 0

namespace Recollection

/-- Queues a candidate that has not been seen. -/
def enqueue (s : Recollection) (c : Candidate) : Recollection :=
  if c ∈ s.seen then s else { s with queue := s.queue ++ [c], seen := insert c s.seen }

/-- All combinations of clauses with active units. -/
def combinations (clauses : List NormalizedClause) (store : Store) : List Candidate :=
  clauses.zipIdx.flatMap fun (c, index) => Saturation.combinations store index c

/-- Begins the next level. -/
def refill (clauses : List NormalizedClause) (store : Store) (s : Recollection) : Recollection :=
  (combinations clauses store).foldl enqueue { s with level := s.level + 1 }

/-- Issues the next candidate, or none if a level adds nothing to the queue. There is no result if
the candidates of the given number of queues have been passed over. -/
def nextWithin (clauses : List NormalizedClause) (store : Store) :
    Nat → Recollection → Option (Option Candidate × Recollection)
  | 0, _ => none
  | n + 1, s =>
    match s.queue.dropWhile fun c => !Saturation.isReady store c with
    | c :: rest => some (some c, { s with queue := rest })
    | [] =>
      let emptied := { s with queue := [] }
      let refilled := emptied.refill clauses store
      if emptied.queue.length < refilled.queue.length then nextWithin clauses store n refilled
      else some (none, refilled)

/-- Queueing different candidates appends those that have not been seen. -/
theorem foldl_enqueue {cs : List Candidate} (hcs : cs.Nodup) (s : Recollection) :
    cs.foldl enqueue s = { s with
      queue := s.queue ++ cs.filter (· ∉ s.seen)
      seen := s.seen ∪ cs.toFinset } := by
  induction cs generalizing s with
  | nil => simp
  | cons c cs ih =>
    obtain ⟨hc, hcs⟩ := List.nodup_cons.mp hcs
    rw [List.foldl_cons, ih hcs, enqueue]
    split
    next hseen =>
      have hunion : s.seen ∪ (c :: cs).toFinset = s.seen ∪ cs.toFinset := by
        rw [List.toFinset_cons, Finset.union_insert, Finset.insert_eq_self.mpr
          (Finset.mem_union_left _ hseen)]
      rw [hunion, List.filter_cons_of_neg (by simpa using hseen)]
    next hseen =>
      have hrest : cs.filter (· ∉ insert c s.seen) = cs.filter (· ∉ s.seen) :=
        List.filter_congr fun d hd => by
          have hne : d ≠ c := fun heq => hc (heq ▸ hd)
          simp [hne]
      rw [hrest, List.filter_cons_of_pos (by simpa using hseen), List.append_assoc,
        List.singleton_append, List.toFinset_cons, Finset.union_insert, Finset.insert_union]

/-- A call issues a candidate that is ready, with what comes before it passed over. -/
theorem nextWithin_of_ready {clauses : List NormalizedClause} {store : Store} {s : Recollection}
    (passed : List Candidate) {c : Candidate} {rest : List Candidate}
    (hqueue : s.queue = passed ++ c :: rest)
    (hpassed : ∀ d ∈ passed, Saturation.isReady store d = false)
    (hc : Saturation.isReady store c = true) (n : Nat) :
    nextWithin clauses store (n + 1) s = some (some c, { s with queue := rest }) := by
  have hdrop : (s.queue.dropWhile fun d => !Saturation.isReady store d) = c :: rest := by
    rw [hqueue, List.dropWhile_append_of_pos fun d hd => by simp [hpassed d hd],
      List.dropWhile_cons_of_neg (by simp [hc])]
  rw [nextWithin, hdrop]

/-- A call begins a level where all candidates in the queue are passed over. -/
theorem nextWithin_of_passed {clauses : List NormalizedClause} {store : Store} {s : Recollection}
    (hpassed : ∀ d ∈ s.queue, Saturation.isReady store d = false) (n : Nat) :
    nextWithin clauses store (n + 1) s =
      let refilled := refill clauses store { s with queue := [] }
      if 0 < refilled.queue.length then nextWithin clauses store n refilled
      else some (none, refilled) := by
  have hdrop : (s.queue.dropWhile fun d => !Saturation.isReady store d) = [] :=
    List.dropWhile_eq_nil_iff.mpr fun d hd => by simp [hpassed d hd]
  rw [nextWithin, hdrop]
  rfl

end Recollection

/-- A search that remembers candidates, with the store that it reads and with what it has issued. -/
structure Recollecting where
  units : Store
  search : Recollection := {}
  /-- The candidates that have been issued, oldest first. -/
  issued : List Candidate := []

namespace Recollecting

open Enumeration (Action)

/-- What an action makes of a search for the clauses of a problem, if the given number of rounds is
enough for a call. The store changes as it does beside a search without a memory. -/
def step (p : NormalizedProblem) (rounds : Nat) (t : Recollecting) : Action → Option Recollecting
  | .next => (t.search.nextWithin p.clauses t.units rounds).map fun (c, search) =>
    { t with search, issued := t.issued ++ c.toList }
  | a => some { t with units := (Enumeration.step p { units := t.units } a).units }

/-- What actions make of a fresh search with an empty store. -/
def run (p : NormalizedProblem) (rounds : Nat) (as : List Action) : Option Recollecting :=
  as.foldlM (step p rounds) { units := { relations := p.relations } }

/-- A search that remembers candidates is as far as one that knows when its level began: it has
seen what has been issued or is pending, and only candidates whose units were stored before. -/
structure Follows (e : Enumeration) (t : Recollecting) : Prop where
  units : t.units = e.units
  issued : t.issued = e.issued
  queue : t.search.queue = e.search.pending
  level : t.search.level = e.search.level
  seen : ∀ c ∈ e.issued ++ e.search.pending, c ∈ t.search.seen
  old : ∀ c ∈ t.search.seen, ∀ i ∈ c.electrons, i < e.search.frontier

variable {p : NormalizedProblem} {e : Enumeration} {t : Recollecting}

/-- The combinations that have not been seen are those for the next level. -/
theorem Follows.unseen_eq (hexact : e.Exact p) (h : Follows e t) :
    (Recollection.combinations p.clauses e.units).filter (· ∉ t.search.seen) =
      (e.search.refill p.clauses e.units).pending :=
  List.filter_congr fun c hc => by
    have hcomplete := hexact.complete c (Store.mem_combinations.mp hc)
    have hseen : c ∈ t.search.seen ↔ ∀ i ∈ c.electrons, i < e.search.frontier :=
      ⟨h.old c, fun hold => h.seen c (hcomplete hold)⟩
    rw [Bool.eq_iff_iff, decide_eq_true_iff, hseen]
    simp

/-- When all candidates have been passed over, both searches begin the same level. -/
theorem Follows.refill_eq (hexact : e.Exact p) (h : Follows e t) :
    Recollection.refill p.clauses t.units { t.search with queue := [] } = {
      queue := (e.search.refill p.clauses e.units).pending
      seen := t.search.seen ∪ (Recollection.combinations p.clauses e.units).toFinset
      level := e.search.level + 1 } := by
  have hnodup : (Recollection.combinations p.clauses e.units).Nodup :=
    Saturation.nodup_combinations hexact.ordered _
  rw [Recollection.refill, h.units, Recollection.foldl_enqueue hnodup, h.level, List.nil_append,
    h.unseen_eq hexact]

/-- A call that begins a level issues its first candidate, and two rounds are enough for it. -/
theorem Follows.nextWithin_eq (hexact : e.Exact p) (h : Follows e t)
    (hpassed : ∀ d ∈ e.search.pending, Saturation.isReady e.units d = false) (n : Nat) :
    t.search.nextWithin p.clauses t.units (n + 2) =
      some ((e.search.refill p.clauses e.units).pending.head?, {
        queue := (e.search.refill p.clauses e.units).pending.tail
        seen := t.search.seen ∪ (Recollection.combinations p.clauses e.units).toFinset
        level := e.search.level + 1 }) := by
  rw [Recollection.nextWithin_of_passed (h.queue ▸ h.units ▸ hpassed), h.refill_eq hexact]
  cases hpending : (e.search.refill p.clauses e.units).pending with
  | nil => rfl
  | cons c rest =>
    have hc : c ∈ (e.search.refill p.clauses e.units).pending := hpending ▸ List.mem_cons_self
    have hready := (Store.mem_combinations.mp (List.mem_filter.mp hc).1).isReady hexact.listed
    exact Recollection.nextWithin_of_ready [] rfl nofun (h.units ▸ hready) n

/-- A call of both searches gives the same candidate, or none. -/
theorem Follows.next (hexact : e.Exact p) (h : Follows e t) (n : Nat) :
    ∃ search, t.search.nextWithin p.clauses t.units (n + 2) =
        some ((Saturation.next p.clauses e.units e.search).1, search) ∧
      Follows (e.step p .next) { t with
        search
        issued := t.issued ++ (Saturation.next p.clauses e.units e.search).1.toList } := by
  dsimp only [Enumeration.step]
  obtain ⟨passed, c, rest, hpending, hpassed, hready, hnext⟩ | ⟨hpassed, hnext⟩ :=
    Saturation.next_cases p.clauses e.units e.search
  · rw [hnext, Recollection.nextWithin_of_ready passed (h.queue.trans hpending)
      (h.units ▸ hpassed) (h.units ▸ hready)]
    refine ⟨_, rfl, h.units, by rw [h.issued], rfl, h.level, fun d hd => h.seen d ?_, h.old⟩
    rw [hpending]
    simp only [List.mem_append, List.mem_cons, Option.toList_some, List.not_mem_nil,
      or_false] at hd ⊢
    tauto
  · rw [hnext, h.nextWithin_eq hexact hpassed]
    refine ⟨_, rfl, h.units, by rw [h.issued], rfl, rfl, fun d hd => ?_, fun d hd i hi => ?_⟩
    · rw [Enumeration.issue_first] at hd
      refine Finset.mem_union.mpr ((List.mem_append.mp hd).imp (fun hd => ?_) fun hd => ?_)
      · exact h.seen d (List.mem_append_left _ hd)
      · exact List.mem_toFinset.mpr (List.mem_filter.mp hd).1
    · rcases Finset.mem_union.mp hd with hd | hd
      · exact Nat.lt_of_lt_of_le (h.old d hd i hi) hexact.frontier
      · exact (Store.mem_combinations.mp (List.mem_toFinset.mp hd)).lt_size hexact.listed hi

/-- Changes of the store are the same beside both searches. -/
theorem Follows.change (h : Follows e t) (result : Except Error Store) :
    Follows (e.change result)
      { t with units := (Enumeration.change { units := t.units } result).units } := by
  cases result with
  | error _ => exact h
  | ok units => exact { h with units := rfl }

/-- Every action has the same effect on both searches. -/
theorem Follows.step (hexact : e.Exact p) (h : Follows e t) (n : Nat) (a : Action) :
    ∃ t', t.step p (n + 2) a = some t' ∧ Follows (e.step p a) t' := by
  cases a with
  | next =>
    obtain ⟨search, hnext, hfollows⟩ := h.next hexact n
    exact ⟨_, by rw [Recollecting.step, hnext]; rfl, hfollows⟩
  | insert u pr => exact ⟨_, rfl, h.units ▸ h.change _⟩
  | retire id => exact ⟨_, rfl, h.units ▸ h.change _⟩
  | recordRefutation u pr => exact ⟨_, rfl, h.units ▸ h.change _⟩

/-- Whatever actions there are, the search that remembers candidates follows the other one, and its
calls need no more than two rounds. -/
theorem follows_run (p : NormalizedProblem) (n : Nat) (as : List Action) :
    ∃ t, run p (n + 2) as = some t ∧ Follows (Enumeration.run p as) t := by
  induction as using List.reverseRecOn with
  | nil => exact ⟨_, rfl, rfl, rfl, rfl, rfl, nofun, nofun⟩
  | append_singleton as a ih =>
    obtain ⟨t, ht, hfollows⟩ := ih
    obtain ⟨t', ht', hfollows'⟩ := hfollows.step (Enumeration.exact_run p as) n a
    refine ⟨t', ?_, Enumeration.run_append as [a] ▸ hfollows'⟩
    rw [run] at ht ⊢
    rw [List.foldlM_append, ht]
    simpa using ht'

/-- Whatever actions there have been, both searches have issued the same candidates and begun the
same levels, and the next call of both gives the same candidate, or none. -/
theorem issues_alike (p : NormalizedProblem) (n : Nat) (as : List Action) :
    ∃ t, run p (n + 2) as = some t ∧ t.units = (Enumeration.run p as).units ∧
      t.issued = (Enumeration.run p as).issued ∧
      t.search.queue = (Enumeration.run p as).search.pending ∧
      t.search.level = (Enumeration.run p as).search.level ∧
      (t.search.nextWithin p.clauses t.units (n + 2)).map Prod.fst = some (Saturation.next p.clauses
        (Enumeration.run p as).units (Enumeration.run p as).search).1 := by
  obtain ⟨t, ht, hfollows⟩ := follows_run p n as
  obtain ⟨search, hnext, -⟩ := hfollows.next (Enumeration.exact_run p as) n
  exact ⟨t, ht, hfollows.units, hfollows.issued, hfollows.queue, hfollows.level,
    by rw [hnext, Option.map_some]⟩

end Recollecting

end HornSaturation
