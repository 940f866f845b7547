/-
Module: SotFs.Proofs.Transactions
Layer: Proofs
Purpose: Atomicity and durability of transactions. with_transaction rolls back when its closure fails, and
  does not when the verifier fails afterwards: it is atomic exactly where the closure's graph passes or is
  the old one. Rollback restores the whole graph and looks at no state: it takes back every operation since
  the begin of its transaction, those of committed transactions and its own included. Along the sessions in
  which no transaction is rolled back once a commit has returned Ok since it began, what was committed stays
  in effect: the snapshots of open transactions agree with the graph on whatever had committed before them.
Trusted boundary: none
Main exports: Atomic, transaction_atomic_iff, Session.NoCommitSince, Session.Agrees, commits_last
-/
import SotFs.Core.Transaction

namespace SotFs

open Relation

/-! ### Atomicity -/

section Atomicity

variable {T : Type}

variable {f : TypeGraph → Except GraphError T × TypeGraph} {g g' : TypeGraph}

theorem withTransaction_failed {e : GraphError} (hf : f g = (.error e, g')) :
    withTransaction f g = (.error e, g) := by
  unfold withTransaction
  rw [hf]
  rfl

theorem withTransaction_verified {r : T} (hf : f g = (.ok r, g')) (hcheck : g'.checkInvariants = .ok ()) :
    withTransaction f g = (.ok r, g') := by
  unfold withTransaction
  rw [hf]
  dsimp only
  rw [hcheck]

theorem withTransaction_violated {r : T} {e : GraphError} (hf : f g = (.ok r, g'))
    (hcheck : g'.checkInvariants = .error e) : withTransaction f g = (.error e, g') := by
  unfold withTransaction
  rw [hf]
  dsimp only
  rw [hcheck]

/-- A transaction that succeeds leaves the graph of its closure, with the invariants verified; one that fails
    leaves the graph as it was. -/
def Atomic (f : TypeGraph → Except GraphError T × TypeGraph) (g : TypeGraph) : Prop :=
  match withTransaction f g with
  | (.ok r, g') => g'.checkInvariants = .ok () ∧ f g = (.ok r, g')
  | (.error _, g') => g' = g

/-- with_transaction is atomic exactly if the graph of a closure that succeeds passes the verifier or is the
    graph from before. -/
theorem transaction_atomic_iff (f : TypeGraph → Except GraphError T × TypeGraph) (g : TypeGraph) :
    Atomic f g ↔ ∀ r, (f g).1 = .ok r → (f g).2.checkInvariants = .ok () ∨ (f g).2 = g := by
  unfold Atomic
  cases hf : f g with
  | mk result g' =>
      cases result with
      | error e =>
          rw [withTransaction_failed hf]
          constructor
          · intro _ r hr
            cases hr
          · intro _
            rfl
      | ok r =>
          cases hcheck : g'.checkInvariants with
          | ok u =>
              rw [withTransaction_verified hf hcheck]
              exact ⟨fun _ _ _ => .inl rfl, fun _ => ⟨hcheck, rfl⟩⟩
          | error e =>
              rw [withTransaction_violated hf hcheck]
              constructor
              · exact fun hsame _ _ => .inr hsame
              · intro hany
                rcases hany r rfl with hok | hsame
                · cases hok
                · exact hsame

end Atomicity

/-- The closure unlinks a file with an attribute: the verifier fails and the file is gone all the same. -/
theorem transaction_not_rolled_back :
    let g := (TypeGraph.new 0).calls (fun _ => 0)
      [.createFile 1 "a" 0 0 .fileDefault, .setxattr 2 .user "k" [1]]
    let f : TypeGraph → Except GraphError Unit × TypeGraph := fun g =>
      (.ok (), ((Op.unlink 1 "a").apply (fun _ => 0) g).2)
    (withTransaction f g).1 = .error (.invariantViolation (.danglingEdge 3 false true)) ∧
      g.resolveName 1 "a" = some 2 ∧ (withTransaction f g).2.resolveName 1 "a" = none ∧ ¬ Atomic f g := by
  have hold : ((TypeGraph.new 0).calls (fun _ => 0) [.createFile 1 "a" 0 0 .fileDefault,
      .setxattr 2 .user "k" [1]]).resolveName 1 "a" = some 2 := by decide
  have hnew : ((TypeGraph.new 0).calls (fun _ => 0) [.createFile 1 "a" 0 0 .fileDefault,
      .setxattr 2 .user "k" [1], .unlink 1 "a"]).resolveName 1 "a" = none := by decide
  refine ⟨by decide, hold, by decide, ?_⟩
  rw [transaction_atomic_iff]
  intro hany
  rcases hany () rfl with hok | hsame
  · revert hok
    decide
  · have hresolve := congrArg (fun g => g.resolveName 1 "a") hsame
    exact absurd (hnew.symm.trans (hresolve.trans hold)) (by decide)

/-! ### Durability of commits -/

namespace Session

/-- The operation was performed for a transaction whose commit returned Ok. -/
def ForCommitted (s : Session) (p : Performed) : Prop := ∃ i ∈ s.committed, p.owner = some i

/-- No commit has returned Ok since transaction `i` began. -/
def NoCommitSince (s : Session) (i : Nat) : Prop := s.committed = s.settled.getD i []

/-- The graph is what the operations in effect make of the first one, and so is every snapshot. -/
structure Replays (s : Session) (first : TypeGraph) : Prop where
  graph : s.graph = replay first s.effects
  length : s.began.length = s.txns.length
  snapshots : ∀ {i txn}, s.txns[i]? = some (some txn) → txn.snapshot = replay first (s.began.getD i [])

/-- What had committed when an open transaction began is in effect now if it was in effect then, and only then;
    no operation is performed for a transaction that has committed. -/
structure Agrees (s : Session) : Prop where
  began : s.began.length = s.txns.length
  settled : s.settled.length = s.txns.length
  earlier : ∀ {i t}, t ∈ s.settled.getD i [] → t ∈ s.committed
  closed : ∀ {t}, t ∈ s.committed → t < s.txns.length ∧
    ∀ {txn}, s.txns[t]? = some (some txn) → txn.state ≠ .active
  effects : ∀ {i txn p t}, s.txns[i]? = some (some txn) → p.owner = some t → t ∈ s.settled.getD i [] →
    (p ∈ s.effects ↔ p ∈ s.began.getD i [])

end Session

section Sessions

variable {allowed : Session → Nat → Prop} {g₀ : TypeGraph} {s s' : Session}

theorem replay_append (g : TypeGraph) (ops : List Performed) (p : Performed) :
    Session.replay g (ops ++ [p]) = (p.op.apply p.now (Session.replay g ops)).2 := by
  unfold Session.replay
  rw [List.foldl_append, List.foldl_cons, List.foldl_nil]

theorem commit_snapshot (txn : Gtxn) : txn.commit.2.snapshot = txn.snapshot := by
  unfold Gtxn.commit
  split
  · rfl
  · rfl

namespace Session

/-- An open transaction after a begin is an old one or the one that began. -/
theorem begin_lookup {j : Nat} {txn : Gtxn} (hj : s.begin.txns[j]? = some (some txn)) :
    (j < s.txns.length ∧ s.txns[j]? = some (some txn)) ∨ (j = s.txns.length ∧ txn = Gtxn.begin s.graph) := by
  change (s.txns ++ [some (Gtxn.begin s.graph)])[j]? = some (some txn) at hj
  by_cases hlt : j < s.txns.length
  · rw [List.getElem?_append_left hlt] at hj
    exact .inl ⟨hlt, hj⟩
  · have hle := not_lt.mp hlt
    rw [List.getElem?_append_right hle, List.getElem?_singleton] at hj
    split at hj
    · rename_i hzero
      cases hj
      exact .inr ⟨le_antisymm (Nat.sub_eq_zero_iff_le.mp hzero) hle, rfl⟩
    · cases hj

/-- An open transaction after a commit is the committing one or another. -/
theorem commit_lookup {i j : Nat} {txn txn' : Gtxn} (hj : (s.commit i txn).txns[j]? = some (some txn')) :
    (i = j ∧ txn' = txn.commit.2) ∨ (i ≠ j ∧ s.txns[j]? = some (some txn')) := by
  change (s.txns.set i (some txn.commit.2))[j]? = some (some txn') at hj
  rw [List.getElem?_set] at hj
  split at hj
  · split at hj
    · cases hj
      exact .inl ⟨‹_›, rfl⟩
    · cases hj
  · exact .inr ⟨‹_›, hj⟩

/-- A rollback opens no transaction. -/
theorem rollback_lookup {i j : Nat} {txn txn' : Gtxn} (hj : (s.rollback i txn).txns[j]? = some (some txn')) :
    s.txns[j]? = some (some txn') := by
  change (s.txns.set i none)[j]? = some (some txn') at hj
  rw [List.getElem?_set] at hj
  split at hj
  · split at hj <;> cases hj
  · exact hj

end Session

/-- Every step keeps the graph and the snapshots what the notes say. -/
theorem SessionStep.replays (h : s.Replays g₀) (hstep : SessionStep allowed s s') : s'.Replays g₀ := by
  cases hstep with
  | begin =>
      refine ⟨h.graph, by simp [Session.begin, h.length], ?_⟩
      intro i txn htxn
      change txn.snapshot = Session.replay g₀ ((s.began ++ [s.effects]).getD i [])
      rcases Session.begin_lookup htxn with ⟨hi, hold⟩ | ⟨hi, rfl⟩
      · rw [List.getD_append _ _ _ _ (h.length ▸ hi)]
        exact h.snapshots hold
      · rw [hi, ← h.length, List.getD_append_right _ _ _ _ le_rfl, Nat.sub_self]
        exact h.graph
  | perform owner now op =>
      refine ⟨?_, h.length, h.snapshots⟩
      change (op.apply now s.graph).2 = Session.replay g₀ (s.effects ++ _)
      rw [replay_append, ← h.graph]
  | commit i txn hopen =>
      refine ⟨h.graph, by simp [Session.commit, h.length], ?_⟩
      intro j txn' htxn'
      rcases Session.commit_lookup htxn' with ⟨rfl, rfl⟩ | ⟨_, hj⟩
      · exact (commit_snapshot txn).trans (h.snapshots hopen)
      · exact h.snapshots hj
  | rollback i txn hopen =>
      refine ⟨h.snapshots hopen, by simp [Session.rollback, h.length], ?_⟩
      intro j txn' htxn'
      exact h.snapshots (Session.rollback_lookup htxn')

theorem Sessions.replays (h : s.Replays g₀) (hsteps : Sessions allowed s s') : s'.Replays g₀ := by
  induction hsteps with
  | refl => exact h
  | tail _ hstep ih => exact hstep.replays ih

theorem replays_start (g₀ : TypeGraph) : (Session.start g₀).Replays g₀ where
  graph := rfl
  length := rfl
  snapshots h := by cases h

/-- A commit that returned Ok is never taken back from the notes. -/
theorem SessionStep.committed (hstep : SessionStep allowed s s') {i : Nat} (hi : i ∈ s.committed) :
    i ∈ s'.committed := by
  cases hstep with
  | commit j txn =>
      unfold Session.commit
      dsimp only
      split
      · exact List.mem_append_left _ hi
      · exact hi
  | begin | perform | rollback => exact hi

/-! ### Snapshots and commits -/

theorem agrees_start (g₀ : TypeGraph) : (Session.start g₀).Agrees where
  began := rfl
  settled := rfl
  earlier h := by simp [Session.start] at h
  closed h := by simp [Session.start] at h
  effects h := by simp [Session.start] at h

namespace Session.Agrees

/-- A new transaction begins with what is in effect and what has committed. -/
theorem begin (h : s.Agrees) : s.begin.Agrees where
  began := by simp [Session.begin, h.began]
  settled := by simp [Session.begin, h.settled]
  earlier := by
    intro i t ht
    change t ∈ (s.settled ++ [s.committed]).getD i [] at ht
    by_cases hi : i < s.settled.length
    · rw [List.getD_append _ _ _ _ hi] at ht
      exact h.earlier ht
    · rw [List.getD_append_right _ _ _ _ (not_lt.mp hi)] at ht
      cases hk : i - s.settled.length with
      | zero =>
          change t ∈ s.committed
          simpa [hk] using ht
      | succ k => simp [hk] at ht
  closed := by
    intro t ht
    obtain ⟨hlt, hstate⟩ := h.closed ht
    refine ⟨by simp [Session.begin, Nat.lt_succ_of_lt hlt], ?_⟩
    intro txn htxn
    rcases begin_lookup htxn with ⟨_, hold⟩ | ⟨hnew, _⟩
    · exact hstate hold
    · exact absurd hnew hlt.ne
  effects := by
    intro i txn p t htxn howner ht
    change t ∈ (s.settled ++ [s.committed]).getD i [] at ht
    change p ∈ s.effects ↔ p ∈ (s.began ++ [s.effects]).getD i []
    rcases begin_lookup htxn with ⟨hi, hold⟩ | ⟨hi, _⟩
    · rw [List.getD_append _ _ _ _ (h.settled ▸ hi)] at ht
      rw [List.getD_append _ _ _ _ (h.began ▸ hi)]
      exact h.effects hold howner ht
    · rw [hi, ← h.began, List.getD_append_right _ _ _ _ le_rfl]
      simp

/-- An operation is performed for an open transaction only, so not for a committed one. -/
theorem perform (h : s.Agrees) {owner : Option Nat} (now : Nat → Timestamp) (op : Op)
    (hactive : ∀ i, owner = some i → ∃ txn, s.txns[i]? = some (some txn) ∧ txn.state = .active) :
    (s.perform owner now op).Agrees where
  began := h.began
  settled := h.settled
  earlier := h.earlier
  closed := h.closed
  effects := by
    intro i txn p t htxn howner ht
    have hother : p ≠ ⟨s.performed, owner, now, op⟩ := by
      rintro rfl
      obtain ⟨txn', htxn', hstate⟩ := hactive t howner
      exact (h.closed (h.earlier ht)).2 htxn' hstate
    change p ∈ s.effects ++ [_] ↔ p ∈ s.began.getD i []
    rw [← h.effects htxn howner ht]
    simp [hother]

theorem commit (h : s.Agrees) {i : Nat} {txn : Gtxn} (hopen : s.txns[i]? = some (some txn)) :
    (s.commit i txn).Agrees := by
  have hnotes : ∀ {t}, t ∈ (s.commit i txn).committed → t ∈ s.committed ∨ (t = i ∧ txn.commit.2.state ≠ .active) := by
    intro t ht
    unfold Session.commit Gtxn.commit at ht
    unfold Gtxn.commit
    by_cases hstate : txn.state ≠ .active
    · rw [if_pos hstate] at ht
      exact .inl ht
    · rw [if_neg hstate] at ht ⊢
      rcases List.mem_append.mp ht with hold | hnew
      · exact .inl hold
      · exact .inr ⟨List.mem_singleton.mp hnew, by simp⟩
  have hkept : txn.state ≠ .active → txn.commit.2.state ≠ .active := by
    intro hstate
    rw [Gtxn.commit, if_pos hstate]
    exact hstate
  refine ⟨?_, ?_, ?_, ?_, ?_⟩
  · simpa [Session.commit] using h.began
  · simpa [Session.commit] using h.settled
  · intro j t ht
    have hstep : SessionStep (fun _ _ => True) s (s.commit i txn) := .commit i txn hopen
    exact hstep.committed (h.earlier ht)
  · intro t ht
    have hlength : (s.commit i txn).txns.length = s.txns.length := by simp [Session.commit]
    rw [hlength]
    rcases hnotes ht with hold | ⟨rfl, hstate⟩
    · refine ⟨(h.closed hold).1, ?_⟩
      intro txn' htxn'
      rcases commit_lookup htxn' with ⟨rfl, rfl⟩ | ⟨_, hj⟩
      · exact hkept ((h.closed hold).2 hopen)
      · exact (h.closed hold).2 hj
    · refine ⟨(List.getElem?_eq_some_iff.mp hopen).1, ?_⟩
      intro txn' htxn'
      rcases commit_lookup htxn' with ⟨_, rfl⟩ | ⟨hne, _⟩
      · exact hstate
      · exact absurd rfl hne
  · intro j txn' p t htxn' howner ht
    rcases commit_lookup htxn' with ⟨rfl, _⟩ | ⟨_, hj⟩
    · exact h.effects hopen howner ht
    · exact h.effects hj howner ht

/-- A rollback puts back a snapshot that has what the graph had of committed transactions, since all of these had
    committed when the snapshot was taken. -/
theorem rollback (h : s.Agrees) {i : Nat} {txn : Gtxn} (hopen : s.txns[i]? = some (some txn))
    (hnone : s.NoCommitSince i) : (s.rollback i txn).Agrees := by
  refine ⟨?_, ?_, h.earlier, ?_, ?_⟩
  · simpa [Session.rollback] using h.began
  · simpa [Session.rollback] using h.settled
  · intro t ht
    refine ⟨by simpa [Session.rollback] using (h.closed ht).1, ?_⟩
    intro txn' htxn'
    exact (h.closed ht).2 (rollback_lookup htxn')
  · intro j txn' p t htxn' howner ht
    change p ∈ s.began.getD i [] ↔ p ∈ s.began.getD j []
    have hsettled : t ∈ s.settled.getD i [] := hnone ▸ h.earlier ht
    rw [← h.effects hopen howner hsettled, h.effects (rollback_lookup htxn') howner ht]

end Session.Agrees

theorem SessionStep.agrees (h : s.Agrees) (hstep : SessionStep Session.NoCommitSince s s') : s'.Agrees := by
  cases hstep with
  | begin => exact h.begin
  | perform owner now op hactive => exact h.perform now op hactive
  | commit i txn hopen => exact h.commit hopen
  | rollback i txn hopen hnone => exact h.rollback hopen hnone

theorem Sessions.agrees (h : s.Agrees) (hsteps : Sessions Session.NoCommitSince s s') : s'.Agrees := by
  induction hsteps with
  | refl => exact h
  | tail _ hstep ih => exact hstep.agrees ih

/-- What is in effect of a committed transaction stays in effect. -/
theorem SessionStep.effects (h : s.Agrees) (hstep : SessionStep Session.NoCommitSince s s') {p : Performed}
    (hp : p ∈ s.effects) (hcommitted : s.ForCommitted p) : p ∈ s'.effects := by
  cases hstep with
  | perform => exact List.mem_append_left _ hp
  | rollback i txn hopen hnone =>
      obtain ⟨t, ht, howner⟩ := hcommitted
      exact (h.effects hopen howner (hnone ▸ ht)).mp hp
  | begin | commit => exact hp

/-- Along every session in which no transaction is rolled back once a commit has returned Ok since it began,
    the graph is always what the operations in effect make of the first one, and an operation of a transaction
    that has committed stays in effect. -/
theorem commits_last (hrun : Sessions Session.NoCommitSince (Session.start g₀) s)
    (hlater : Sessions Session.NoCommitSince s s') :
    s.graph = Session.replay g₀ s.effects ∧ s'.graph = Session.replay g₀ s'.effects ∧
      ∀ p ∈ s.effects, s.ForCommitted p → p ∈ s'.effects := by
  have hreplays := Sessions.replays (replays_start g₀) hrun
  have hagrees := Sessions.agrees (agrees_start g₀) hrun
  refine ⟨hreplays.graph, (Sessions.replays hreplays hlater).graph, ?_⟩
  rintro p hp ⟨i, hi, howner⟩
  have hkept : p ∈ s'.effects ∧ i ∈ s'.committed := by
    induction hlater with
    | refl => exact ⟨hp, hi⟩
    | tail hbefore hstep ih =>
        have hagrees' := Sessions.agrees hagrees hbefore
        exact ⟨hstep.effects hagrees' ih.1 ⟨i, ih.2, howner⟩, hstep.committed ih.2⟩
  exact hkept.1

end Sessions

/-- A transaction makes a file and commits; another one makes a second file and is rolled back. -/
theorem commits_last_rolled_back :
    let session := (Session.start (.new 0)).begin
    let session := session.perform (some 0) (fun _ => 0) (.createFile 1 "a" 0 0 .fileDefault)
    let session := session.commit 0 (Gtxn.begin (.new 0))
    let later := session.begin.perform (some 1) (fun _ => 0) (.createFile 1 "b" 0 0 .fileDefault)
    let later := later.rollback 1 (Gtxn.begin session.graph)
    later.graph = Session.replay (.new 0) later.effects ∧ ∀ p ∈ session.effects, p ∈ later.effects := by
  intro s₁ s₂ s₃ s₄ s₅
  have hfirst : Sessions Session.NoCommitSince (Session.start (.new 0)) s₃ := by
    refine ReflTransGen.refl.tail .begin |>.tail (.perform (some 0) _ _ ?_) |>.tail (.commit 0 _ rfl)
    rintro _ ⟨⟩
    exact ⟨_, rfl, rfl⟩
  have hsecond : Sessions Session.NoCommitSince s₃ s₅ := by
    -- only transaction 0 has committed, before 1 began
    refine ReflTransGen.refl.tail .begin |>.tail (.perform (some 1) _ _ ?_) |>.tail (.rollback 1 _ rfl rfl)
    rintro _ ⟨⟩
    exact ⟨_, rfl, rfl⟩
  obtain ⟨_, hgraph, hkept⟩ := commits_last hfirst hsecond
  refine ⟨hgraph, ?_⟩
  intro p hp
  refine hkept p hp ⟨0, List.mem_singleton.mpr rfl, ?_⟩
  rw [List.mem_singleton.mp hp]

/-- A committed transaction is rolled back and takes its own file away; and one that began earlier is rolled
    back and takes the file of a committed one away. -/
theorem commit_undone :
    (∃ s s', Sessions (fun _ _ => True) (Session.start (.new 0)) s ∧ Sessions (fun _ _ => True) s s' ∧
      0 ∈ s.committed ∧ (∃ p ∈ s.effects, s.ForCommitted p ∧ p ∉ s'.effects) ∧
      s.graph.resolveName 1 "a" = some 2 ∧ s'.graph.resolveName 1 "a" = none) ∧
    ∃ s s', Sessions (fun _ _ => True) (Session.start (.new 0)) s ∧ Sessions (fun _ _ => True) s s' ∧
      s.committed = [1] ∧ (∃ p ∈ s.effects, s.ForCommitted p ∧ p ∉ s'.effects) ∧
      s.graph.resolveName 1 "a" = some 2 ∧ s'.graph.resolveName 1 "a" = none := by
  refine ⟨?_, ?_⟩
  · refine ⟨_, _, ReflTransGen.refl.tail .begin
      |>.tail (.perform (some 0) (fun _ => 0) (.createFile 1 "a" 0 0 .fileDefault) ?_)
      |>.tail (.commit 0 (Gtxn.begin (.new 0)) rfl),
      ReflTransGen.refl.tail (.rollback 0 (Gtxn.begin (.new 0)).commit.2 rfl trivial),
      List.mem_singleton.mpr rfl, ⟨_, List.mem_singleton.mpr rfl, ⟨0, List.mem_singleton.mpr rfl, rfl⟩,
        List.not_mem_nil⟩, by decide, by decide⟩
    rintro _ ⟨⟩
    exact ⟨_, rfl, rfl⟩
  · refine ⟨_, _, ReflTransGen.refl.tail .begin |>.tail .begin
      |>.tail (.perform (some 1) (fun _ => 0) (.createFile 1 "a" 0 0 .fileDefault) ?_)
      |>.tail (.commit 1 (Gtxn.begin (.new 0)) rfl),
      ReflTransGen.refl.tail (.rollback 0 (Gtxn.begin (.new 0)) rfl trivial),
      rfl, ⟨_, List.mem_singleton.mpr rfl, ⟨1, List.mem_singleton.mpr rfl, rfl⟩, List.not_mem_nil⟩,
      by decide, by decide⟩
    rintro _ ⟨⟩
    exact ⟨_, rfl, rfl⟩

end SotFs
