/-
Module: SotFs.Foundation.TreeDecomposition
Layer: Foundation
Purpose: Tree decompositions of a graph on a finite set of vertices, and treewidth. The nodes of the tree are
  numbered with every parent before its children, so that a connected set of nodes is one with a single top.
  Such sets that meet pairwise meet in one node; from this follow the vertex of small degree, the bag that
  holds a clique, and the lower bound by branch sets. A vertex with at most two neighbours is eliminated
  without a wider bag, a vertex whose neighbours form a clique is added back, and a graph whose vertices see
  only small cliques below them in some ranking is narrow.
Trusted boundary: none
Main exports: Subtree, Subtree.helly, TreeDecomposition, TreewidthLE, fillAt,
  TreewidthLE.exists_degree_le, TreewidthLE.fillAt, TreewidthLE.attach, TreewidthLE.of_fillAt,
  TreewidthLE.of_rank, TreewidthLE.comap, TreewidthLE.branches_le, TreewidthLE.card_le_of_pairs
-/
import Mathlib

namespace Foundation

/-! ### Connected sets of nodes -/

/-- A connected set of nodes of a rooted tree: it has a top, and with every other node it holds the node's
    parent. -/
structure Subtree (parent : ℕ → ℕ) (P : ℕ → Prop) (top : ℕ) : Prop where
  top_mem : P top
  up : ∀ i, P i → i ≠ top → 0 < i ∧ P (parent i)

namespace Subtree

variable {parent : ℕ → ℕ} {P Q : ℕ → Prop} {s t : ℕ}

/-- The top comes first. -/
theorem top_le (hparent : ∀ i, 0 < i → parent i < i) (h : Subtree parent P t) :
    ∀ i, P i → t ≤ i := by
  intro i
  induction i using Nat.strong_induction_on with
  | _ i ih =>
      intro hi
      by_cases htop : i = t
      · exact htop.ge
      · obtain ⟨hpos, hup⟩ := h.up i hi htop
        have hlt := hparent i hpos
        exact (ih (parent i) hlt hup).trans hlt.le

/-- Two connected sets that meet hold the later of their tops. The walk up from a common node stays in both
    until it is there. -/
theorem mem_of_top_le (hparent : ∀ i, 0 < i → parent i < i) (h : Subtree parent P s)
    (h' : Subtree parent Q t) (hle : s ≤ t) : ∀ x, P x → Q x → P t := by
  intro x
  induction x using Nat.strong_induction_on with
  | _ x ih =>
      intro hp hq
      by_cases htop : x = t
      · exact htop ▸ hp
      · obtain ⟨hpos, hqup⟩ := h'.up x hq htop
        have hlt := hparent x hpos
        have hge := h'.top_le hparent (parent x) hqup
        have hne : x ≠ s := by omega
        exact ih (parent x) hlt (h.up x hp hne).2 hqup

/-- The union of two connected sets that meet is connected. -/
theorem union (hparent : ∀ i, 0 < i → parent i < i) (h : Subtree parent P s) (h' : Subtree parent Q t)
    (hle : s ≤ t) {x : ℕ} (hp : P x) (hq : Q x) : Subtree parent (fun i => P i ∨ Q i) s where
  top_mem := .inl h.top_mem
  up := by
    rintro i (hi | hi) hne
    · exact (h.up i hi hne).imp_right .inl
    · by_cases htop : i = t
      · have hpi : P i := htop ▸ h.mem_of_top_le hparent h' hle x hp hq
        exact (h.up i hpi hne).imp_right .inl
      · exact (h'.up i hi htop).imp_right .inr

/-- The union of two connected sets that meet, whichever top comes first. -/
theorem exists_union (hparent : ∀ i, 0 < i → parent i < i) (h : Subtree parent P s)
    (h' : Subtree parent Q t) {x : ℕ} (hp : P x) (hq : Q x) :
    ∃ u, Subtree parent (fun i => P i ∨ Q i) u := by
  rcases le_total s t with hle | hle
  · exact ⟨s, h.union hparent h' hle hp hq⟩
  · obtain ⟨htop, hup⟩ := h'.union hparent h hle hq hp
    exact ⟨t, htop.symm, fun i hi hne => (hup i hi.symm hne).imp_right Or.symm⟩

/-- Connected sets that meet pairwise have a common node: the latest of their tops. -/
theorem helly {ι : Type*} (hparent : ∀ i, 0 < i → parent i < i) {J : Finset ι} (hJ : J.Nonempty)
    (P : ι → ℕ → Prop) {top : ι → ℕ} (h : ∀ j ∈ J, Subtree parent (P j) (top j))
    (hmeet : ∀ j ∈ J, ∀ l ∈ J, ∃ x, P j x ∧ P l x) : ∃ t, ∀ j ∈ J, P j t := by
  obtain ⟨l, hl, hmax⟩ := J.exists_max_image top hJ
  refine ⟨top l, fun j hj => ?_⟩
  obtain ⟨x, hj', hl'⟩ := hmeet j hj l hl
  exact (h j hj).mem_of_top_le hparent (h l hl) (hmax j hj) x hj' hl'

end Subtree

/-! ### Tree decompositions -/

variable {V W : Type*}

/-- A tree decomposition of the graph that `G` induces on `S`. The tree has the nodes below `nodes`, node 0
    is its root and every other node comes after its parent. Every vertex and every edge has a bag, and the
    nodes whose bags hold a vertex are connected. -/
structure TreeDecomposition (G : SimpleGraph V) (S : Finset V) where
  nodes : ℕ
  parent : ℕ → ℕ
  bag : ℕ → Finset V
  top : V → ℕ
  parent_lt : ∀ i, 0 < i → parent i < i
  bag_subset : ∀ i, bag i ⊆ S
  bag_outside : ∀ i, nodes ≤ i → bag i = ∅
  subtree : ∀ v ∈ S, Subtree parent (fun i => v ∈ bag i) (top v)
  edge : ∀ u ∈ S, ∀ v ∈ S, G.Adj u v → ∃ i, u ∈ bag i ∧ v ∈ bag i

/-- The graph that `G` induces on `S` has treewidth at most `k`: it has a tree decomposition with bags of at
    most `k + 1` vertices. -/
def TreewidthLE (G : SimpleGraph V) (S : Finset V) (k : ℕ) : Prop :=
  ∃ D : TreeDecomposition G S, ∀ i, (D.bag i).card ≤ k + 1

/-- At most `k` vertices of `S` are neighbours of `v`. -/
def DegreeLE (G : SimpleGraph V) (S : Finset V) (v : V) (k : ℕ) : Prop :=
  ∀ N : Finset V, (∀ u ∈ N, u ∈ S ∧ G.Adj v u) → N.card ≤ k

/-- The elimination of a vertex: its neighbours become a clique. -/
def fillAt (G : SimpleGraph V) (v : V) : SimpleGraph V where
  Adj a b := a ≠ b ∧ (G.Adj a b ∨ (G.Adj v a ∧ G.Adj v b))
  symm := ⟨by
    rintro a b ⟨hne, hab | ⟨hva, hvb⟩⟩
    · exact ⟨hne.symm, .inl hab.symm⟩
    · exact ⟨hne.symm, .inr ⟨hvb, hva⟩⟩⟩
  loopless := ⟨fun _ h => h.1 rfl⟩

namespace TreeDecomposition

variable {G : SimpleGraph V} {S : Finset V}

/-- A clique lies in one bag. -/
theorem exists_bag_of_clique (D : TreeDecomposition G S) {N : Finset V} (hN : N.Nonempty) (hsub : N ⊆ S)
    (hclique : ∀ a ∈ N, ∀ b ∈ N, a ≠ b → G.Adj a b) : ∃ i, N ⊆ D.bag i := by
  obtain ⟨t, ht⟩ := Subtree.helly D.parent_lt hN (fun v i => v ∈ D.bag i)
    (fun v hv => D.subtree v (hsub hv)) (by
      intro a ha b hb
      by_cases hab : a = b
      · exact ⟨D.top a, (D.subtree a (hsub ha)).top_mem, hab ▸ (D.subtree a (hsub ha)).top_mem⟩
      · exact D.edge a (hsub ha) b (hsub hb) (hclique a ha b hb hab))
  exact ⟨t, ht⟩

/-- The vertex whose top comes last has all its neighbours in the bag there. -/
theorem exists_last (D : TreeDecomposition G S) (hS : S.Nonempty) :
    ∃ v ∈ S, ∀ u ∈ S, G.Adj v u → u ∈ D.bag (D.top v) := by
  obtain ⟨v, hv, hmax⟩ := S.exists_max_image D.top hS
  refine ⟨v, hv, fun u hu hadj => ?_⟩
  obtain ⟨x, hvx, hux⟩ := D.edge v hv u hu hadj
  exact (D.subtree u hu).mem_of_top_le D.parent_lt (D.subtree v hv) (hmax u hu) x hux hvx

end TreeDecomposition

namespace TreewidthLE

variable {G H : SimpleGraph V} {S : Finset V} {k : ℕ}

/-- A graph of treewidth at most `k` has a vertex with at most `k` neighbours. -/
theorem exists_degree_le (h : TreewidthLE G S k) (hS : S.Nonempty) : ∃ v ∈ S, DegreeLE G S v k := by
  classical
  obtain ⟨D, hwidth⟩ := h
  obtain ⟨v, hv, hlast⟩ := D.exists_last hS
  refine ⟨v, hv, fun N hN => ?_⟩
  have hvN : v ∉ N := fun hmem => G.loopless.irrefl v (hN v hmem).2
  have hsub : insert v N ⊆ D.bag (D.top v) := by
    intro u hu
    rcases Finset.mem_insert.mp hu with rfl | hu
    · exact (D.subtree u hv).top_mem
    · exact hlast u (hN u hu).1 (hN u hu).2
  have hcard := (Finset.card_le_card hsub).trans (hwidth _)
  rw [Finset.card_insert_of_notMem hvN] at hcard
  omega

/-- Fewer edges, wider bags. -/
theorem mono (h : TreewidthLE G S k) (hsub : ∀ u ∈ S, ∀ v ∈ S, H.Adj u v → G.Adj u v) {k' : ℕ}
    (hk : k ≤ k') : TreewidthLE H S k' := by
  obtain ⟨D, hwidth⟩ := h
  exact ⟨{ D with edge := fun u hu v hv hadj => D.edge u hu v hv (hsub u hu v hv hadj) },
    fun i => (hwidth i).trans (by omega)⟩

/-- The graph without vertices. -/
theorem empty (G : SimpleGraph V) (k : ℕ) : TreewidthLE G ∅ k :=
  ⟨{ nodes := 0
     parent := fun _ => 0
     bag := fun _ => ∅
     top := fun _ => 0
     parent_lt := fun _ h => h
     bag_subset := fun _ => subset_rfl
     bag_outside := fun _ _ => rfl
     subtree := fun _ hv => absurd hv (Finset.notMem_empty _)
     edge := fun _ hu => absurd hu (Finset.notMem_empty _) }, fun _ => Nat.zero_le _⟩

/-- Eliminating a vertex with at most two neighbours needs no wider bag: the bags take one of its neighbours
    in its place. -/
theorem fillAt [DecidableEq V] (h : TreewidthLE G S k) {v : V} (hv : v ∈ S) (hdegree : DegreeLE G S v 2) :
    TreewidthLE (Foundation.fillAt G v) (S.erase v) k := by
  obtain ⟨D, hwidth⟩ := h
  by_cases hneighbour : ∃ a ∈ S, G.Adj v a
  · obtain ⟨a, ha, hva⟩ := hneighbour
    have hav : a ≠ v := hva.ne'
    obtain ⟨x, hxv, hxa⟩ := D.edge v hv a ha hva
    obtain ⟨t, hmerged⟩ := (D.subtree a ha).exists_union D.parent_lt (D.subtree v hv) hxa hxv
    let bag : ℕ → Finset V := fun i => if v ∈ D.bag i then insert a ((D.bag i).erase v) else D.bag i
    have hbag : ∀ {u i}, u ∈ bag i ↔ u ≠ v ∧ (u ∈ D.bag i ∨ u = a ∧ v ∈ D.bag i) := by
      intro u i
      dsimp only [bag]
      split
      · rename_i hmem
        rw [Finset.mem_insert, Finset.mem_erase]
        constructor
        · rintro (rfl | ⟨hne, hu⟩)
          · exact ⟨hav, .inr ⟨rfl, hmem⟩⟩
          · exact ⟨hne, .inl hu⟩
        · rintro ⟨hne, hu | ⟨rfl, _⟩⟩
          · exact .inr ⟨hne, hu⟩
          · exact .inl rfl
      · rename_i hmem
        constructor
        · intro hu
          exact ⟨fun heq => hmem (heq ▸ hu), .inl hu⟩
        · rintro ⟨_, hu | ⟨_, hv'⟩⟩
          · exact hu
          · exact absurd hv' hmem
    refine ⟨{ nodes := D.nodes, parent := D.parent, bag := bag, parent_lt := D.parent_lt
              top := fun u => if u = a then t else D.top u
              bag_subset := ?_, bag_outside := ?_, subtree := ?_, edge := ?_ }, ?_⟩
    · intro i u hu
      obtain ⟨hne, hu | ⟨rfl, _⟩⟩ := hbag.mp hu
      · exact Finset.mem_erase.mpr ⟨hne, D.bag_subset i hu⟩
      · exact Finset.mem_erase.mpr ⟨hne, ha⟩
    · intro i hi
      dsimp only [bag]
      rw [D.bag_outside i hi, if_neg (Finset.notMem_empty v)]
    · intro u hu
      obtain ⟨hne, huS⟩ := Finset.mem_erase.mp hu
      by_cases hua : u = a
      · subst hua
        rw [if_pos rfl]
        refine ⟨hbag.mpr ⟨hne, hmerged.top_mem.imp_right fun hmem => ⟨rfl, hmem⟩⟩, fun i hi hit => ?_⟩
        obtain ⟨hpos, hup⟩ := hmerged.up i ((hbag.mp hi).2.imp_right And.right) hit
        exact ⟨hpos, hbag.mpr ⟨hne, hup.imp_right fun hmem => ⟨rfl, hmem⟩⟩⟩
      · rw [if_neg hua]
        have hsame : ∀ {i}, u ∈ bag i ↔ u ∈ D.bag i := by
          intro i
          rw [hbag]
          exact ⟨fun hu => hu.2.resolve_right fun h => hua h.1, fun hu => ⟨hne, .inl hu⟩⟩
        refine ⟨hsame.mpr (D.subtree u huS).top_mem, fun i hi hit => ?_⟩
        exact ((D.subtree u huS).up i (hsame.mp hi) hit).imp_right hsame.mpr
    · intro u hu w hw hadj
      obtain ⟨hune, huS⟩ := Finset.mem_erase.mp hu
      obtain ⟨hwne, hwS⟩ := Finset.mem_erase.mp hw
      obtain ⟨huw, hadj | ⟨hvu, hvw⟩⟩ := hadj
      · obtain ⟨i, hui, hwi⟩ := D.edge u huS w hwS hadj
        exact ⟨i, hbag.mpr ⟨hune, .inl hui⟩, hbag.mpr ⟨hwne, .inl hwi⟩⟩
      · -- of two different neighbours one is `a`
        have htwo : u = a ∨ w = a := by
          by_contra hother
          rw [not_or] at hother
          have hcard := hdegree {a, u, w} (by
            intro b hb
            simp only [Finset.mem_insert, Finset.mem_singleton] at hb
            rcases hb with rfl | rfl | rfl
            · exact ⟨ha, hva⟩
            · exact ⟨huS, hvu⟩
            · exact ⟨hwS, hvw⟩)
          rw [Finset.card_eq_three.mpr ⟨a, u, w, Ne.symm hother.1, Ne.symm hother.2, huw, rfl⟩] at hcard
          omega
        rcases htwo with rfl | rfl
        · obtain ⟨i, hvi, hwi⟩ := D.edge v hv w hwS hvw
          exact ⟨i, hbag.mpr ⟨hune, .inr ⟨rfl, hvi⟩⟩, hbag.mpr ⟨hwne, .inl hwi⟩⟩
        · obtain ⟨i, hvi, hui⟩ := D.edge v hv u huS hvu
          exact ⟨i, hbag.mpr ⟨hune, .inl hui⟩, hbag.mpr ⟨hwne, .inr ⟨rfl, hvi⟩⟩⟩
    · intro i
      dsimp only [bag]
      split
      · rename_i hmem
        have hcard := Finset.card_insert_le a ((D.bag i).erase v)
        rw [Finset.card_erase_of_mem hmem] at hcard
        have hpos : 0 < (D.bag i).card := Finset.card_pos.mpr ⟨v, hmem⟩
        have hle := hwidth i
        omega
      · exact hwidth i
  · -- an isolated vertex is dropped from the bags
    refine ⟨{ nodes := D.nodes, parent := D.parent, bag := fun i => (D.bag i).erase v, top := D.top
              parent_lt := D.parent_lt
              bag_subset := fun i => Finset.erase_subset_erase v (D.bag_subset i)
              bag_outside := fun i hi => by rw [D.bag_outside i hi, Finset.erase_empty]
              subtree := ?_, edge := ?_ }, fun i => (Finset.card_erase_le).trans (hwidth i)⟩
    · intro u hu
      obtain ⟨hne, huS⟩ := Finset.mem_erase.mp hu
      refine ⟨Finset.mem_erase.mpr ⟨hne, (D.subtree u huS).top_mem⟩, fun i hi hit => ?_⟩
      exact ((D.subtree u huS).up i (Finset.mem_of_mem_erase hi) hit).imp_right
        fun hmem => Finset.mem_erase.mpr ⟨hne, hmem⟩
    · intro u hu w hw hadj
      obtain ⟨hune, huS⟩ := Finset.mem_erase.mp hu
      obtain ⟨hwne, hwS⟩ := Finset.mem_erase.mp hw
      obtain ⟨_, hadj | ⟨hvu, _⟩⟩ := hadj
      · obtain ⟨i, hui, hwi⟩ := D.edge u huS w hwS hadj
        exact ⟨i, Finset.mem_erase.mpr ⟨hune, hui⟩, Finset.mem_erase.mpr ⟨hwne, hwi⟩⟩
      · exact absurd ⟨u, huS, hvu⟩ hneighbour

/-- A vertex whose neighbours form a clique of at most `k` vertices is added in a bag of its own, next to
    one that holds the clique. -/
theorem attach [DecidableEq V] {v : V} (h : TreewidthLE G (S.erase v) k) (hv : v ∈ S)
    (hclique : ∀ a ∈ S, ∀ b ∈ S, G.Adj v a → G.Adj v b → a ≠ b → G.Adj a b) (hdegree : DegreeLE G S v k) :
    TreewidthLE G S k := by
  classical
  obtain ⟨D, hwidth⟩ := h
  let N := S.filter (G.Adj v)
  have hN : ∀ {u}, u ∈ N ↔ u ∈ S ∧ G.Adj v u := Finset.mem_filter
  have hvN : v ∉ N := fun hmem => G.loopless.irrefl v (hN.mp hmem).2
  have hold : ∀ {u i}, u ∈ D.bag i → i < D.nodes := by
    intro u i hu
    by_contra hge
    rw [D.bag_outside i (not_lt.mp hge)] at hu
    exact Finset.notMem_empty u hu
  obtain ⟨host, hhost, hlt⟩ : ∃ host, N ⊆ D.bag host ∧ (0 < D.nodes → host < D.nodes) := by
    rcases N.eq_empty_or_nonempty with hempty | hne
    · exact ⟨0, hempty ▸ Finset.empty_subset _, fun hpos => hpos⟩
    · obtain ⟨host, hhost⟩ := D.exists_bag_of_clique hne
        (fun u hu => Finset.mem_erase.mpr ⟨(hN.mp hu).2.ne', (hN.mp hu).1⟩)
        fun a ha b hb hab => hclique a (hN.mp ha).1 b (hN.mp hb).1 (hN.mp ha).2 (hN.mp hb).2 hab
      obtain ⟨u, hu⟩ := hne
      exact ⟨host, hhost, fun _ => hold (hhost hu)⟩
  -- the new node hangs below the host and keeps its number for itself
  let bag := Function.update D.bag D.nodes (insert v N)
  have hbag : ∀ {u i}, u ≠ v → (u ∈ bag i ↔ u ∈ D.bag i ∨ i = D.nodes ∧ u ∈ N) := by
    intro u i hne
    dsimp only [bag]
    by_cases hi : i = D.nodes
    · subst hi
      rw [Function.update_self, Finset.mem_insert, D.bag_outside _ le_rfl]
      simp [hne]
    · rw [Function.update_of_ne hi]
      simp [hi]
  have hnew : bag D.nodes = insert v N := Function.update_self _ _ _
  have hv' : ∀ {i}, v ∈ bag i ↔ i = D.nodes := by
    intro i
    constructor
    · intro hmem
      by_contra hi
      rw [show bag i = D.bag i from Function.update_of_ne hi _ _] at hmem
      exact Finset.notMem_erase v S (D.bag_subset i hmem)
    · rintro rfl
      rw [hnew]
      exact Finset.mem_insert_self v N
  refine ⟨{ nodes := D.nodes + 1, parent := Function.update D.parent D.nodes host, bag := bag
            top := Function.update D.top v D.nodes
            parent_lt := ?_, bag_subset := ?_, bag_outside := ?_, subtree := ?_, edge := ?_ }, ?_⟩
  · intro i hi
    by_cases hnode : i = D.nodes
    · subst hnode
      rw [Function.update_self]
      exact hlt hi
    · rw [Function.update_of_ne hnode]
      exact D.parent_lt i hi
  · intro i u hu
    by_cases huv : u = v
    · exact huv ▸ hv
    · rcases (hbag huv).mp hu with hu | ⟨_, hu⟩
      · exact Finset.mem_of_mem_erase (D.bag_subset i hu)
      · exact (hN.mp hu).1
  · intro i hi
    dsimp only [bag]
    rw [Function.update_of_ne (by omega), D.bag_outside i (by omega)]
  · intro u hu
    by_cases huv : u = v
    · subst huv
      rw [Function.update_self]
      exact ⟨hv'.mpr rfl, fun i hi hne => absurd (hv'.mp hi) hne⟩
    · have huS : u ∈ S.erase v := Finset.mem_erase.mpr ⟨huv, hu⟩
      rw [Function.update_of_ne huv]
      refine ⟨(hbag huv).mpr (.inl (D.subtree u huS).top_mem), fun i hi hne => ?_⟩
      rcases (hbag huv).mp hi with hi | ⟨rfl, huN⟩
      · obtain ⟨hpos, hup⟩ := (D.subtree u huS).up i hi hne
        have hnode := (hold hi).ne
        rw [Function.update_of_ne hnode]
        exact ⟨hpos, (hbag huv).mpr (.inl hup)⟩
      · rw [Function.update_self]
        exact ⟨(Nat.zero_le _).trans_lt (hold (hhost huN)), (hbag huv).mpr (.inl (hhost huN))⟩
  · have hpair : ∀ {w}, w ∈ S → G.Adj v w → v ∈ bag D.nodes ∧ w ∈ bag D.nodes := by
      intro w hw hadj
      exact ⟨hv'.mpr rfl, (hbag hadj.ne').mpr (.inr ⟨rfl, hN.mpr ⟨hw, hadj⟩⟩)⟩
    intro u hu w hw hadj
    by_cases huv : u = v
    · subst huv
      exact ⟨_, hpair hw hadj⟩
    · by_cases hwv : w = v
      · subst hwv
        exact ⟨_, (hpair hu hadj.symm).symm⟩
      · obtain ⟨i, hui, hwi⟩ := D.edge u (Finset.mem_erase.mpr ⟨huv, hu⟩) w (Finset.mem_erase.mpr ⟨hwv, hw⟩) hadj
        exact ⟨i, (hbag huv).mpr (.inl hui), (hbag hwv).mpr (.inl hwi)⟩
  · intro i
    by_cases hi : i = D.nodes
    · subst hi
      change (bag D.nodes).card ≤ k + 1
      rw [hnew, Finset.card_insert_of_notMem hvN]
      exact Nat.succ_le_succ (hdegree N fun u hu => hN.mp hu)
    · change (bag i).card ≤ k + 1
      rw [show bag i = D.bag i from Function.update_of_ne hi _ _]
      exact hwidth i

/-- Treewidth from an elimination: a vertex with at most `k` neighbours and what is left without it. -/
theorem of_fillAt [DecidableEq V] {v : V} (h : TreewidthLE (Foundation.fillAt G v) (S.erase v) k) (hv : v ∈ S)
    (hdegree : DegreeLE G S v k) : TreewidthLE G S k := by
  have hsame : ∀ {u}, (Foundation.fillAt G v).Adj v u → G.Adj v u := by
    rintro u ⟨_, hadj | ⟨hloop, _⟩⟩
    · exact hadj
    · exact absurd hloop (G.loopless.irrefl v)
  have hfilled : TreewidthLE (Foundation.fillAt G v) S k := by
    refine h.attach hv (fun a _ b _ hva hvb hab => ⟨hab, .inr ⟨hsame hva, hsame hvb⟩⟩) fun N hN => ?_
    exact hdegree N fun u hu => (hN u hu).imp_right hsame
  exact hfilled.mono (fun u _ w _ hadj => ⟨hadj.ne, .inl hadj⟩) le_rfl

/-- Treewidth from a ranking: what a vertex sees at or below its own rank lies in a clique of at most `k`
    vertices. -/
theorem of_rank [DecidableEq V] {α : Type*} [LinearOrder α] (rank : V → α) (S : Finset V)
    (hbelow : ∀ v ∈ S, ∃ K : Finset V, K.card ≤ k ∧ (∀ a ∈ K, ∀ b ∈ K, a ≠ b → G.Adj a b) ∧
      ∀ u ∈ S, G.Adj v u → rank u ≤ rank v → u ∈ K) : TreewidthLE G S k := by
  induction S using Finset.induction_on_max_value rank with
  | empty => exact .empty G k
  | @insert v S hv hmax ih =>
      have hnarrow : TreewidthLE G S k := by
        refine ih fun u hu => ?_
        obtain ⟨K, hcard, hclique, hmem⟩ := hbelow u (Finset.mem_insert_of_mem hu)
        exact ⟨K, hcard, hclique, fun w hw => hmem w (Finset.mem_insert_of_mem hw)⟩
      obtain ⟨K, hcard, hclique, hmem⟩ := hbelow v (Finset.mem_insert_self v S)
      have hin : ∀ {u}, u ∈ insert v S → G.Adj v u → u ∈ K := by
        intro u hu hadj
        exact hmem u hu hadj (hmax u ((Finset.mem_insert.mp hu).resolve_left hadj.ne'))
      refine attach (v := v) ?_ (Finset.mem_insert_self v S) (fun a ha b hb hva hvb hab => ?_) fun N hN => ?_
      · rwa [Finset.erase_insert hv]
      · exact hclique a (hin ha hva) b (hin hb hvb) hab
      · exact (Finset.card_le_card fun u hu => hin (hN u hu).1 (hN u hu).2).trans hcard

/-- The treewidth of a graph bounds that of a copy of a part of it. -/
theorem comap [DecidableEq V] [DecidableEq W] (h : TreewidthLE G S k) {H : SimpleGraph W} {T : Finset W} {f : W → V}
    (hf : ∀ u ∈ T, f u ∈ S) (hinj : ∀ u ∈ T, ∀ w ∈ T, f u = f w → u = w)
    (hadj : ∀ u ∈ T, ∀ w ∈ T, H.Adj u w → G.Adj (f u) (f w)) : TreewidthLE H T k := by
  obtain ⟨D, hwidth⟩ := h
  have hbag : ∀ {u i}, u ∈ T.filter (fun u => f u ∈ D.bag i) ↔ u ∈ T ∧ f u ∈ D.bag i := Finset.mem_filter
  refine ⟨{ nodes := D.nodes, parent := D.parent, bag := fun i => T.filter fun u => f u ∈ D.bag i
            top := fun u => D.top (f u), parent_lt := D.parent_lt
            bag_subset := fun i => Finset.filter_subset _ T
            bag_outside := ?_, subtree := ?_, edge := ?_ }, ?_⟩
  · intro i hi
    rw [D.bag_outside i hi]
    simp
  · intro u hu
    have htree := D.subtree (f u) (hf u hu)
    refine ⟨hbag.mpr ⟨hu, htree.top_mem⟩, fun i hi hne => ?_⟩
    exact (htree.up i (hbag.mp hi).2 hne).imp_right fun hmem => hbag.mpr ⟨hu, hmem⟩
  · intro u hu w hw huw
    obtain ⟨i, hui, hwi⟩ := D.edge (f u) (hf u hu) (f w) (hf w hw) (hadj u hu w hw huw)
    exact ⟨i, hbag.mpr ⟨hu, hui⟩, hbag.mpr ⟨hw, hwi⟩⟩
  · intro i
    have himage : (T.filter fun u => f u ∈ D.bag i).image f ⊆ D.bag i := by
      intro x hx
      obtain ⟨u, hu, rfl⟩ := Finset.mem_image.mp hx
      exact (hbag.mp hu).2
    rw [← Finset.card_image_of_injOn fun u hu w hw => hinj u (hbag.mp hu).1 w (hbag.mp hw).1]
    exact (Finset.card_le_card himage).trans (hwidth i)

/-- The lower bound by branch sets: `m` disjoint stars that touch pairwise need a bag of `m` vertices. -/
theorem branches_le [DecidableEq V] (h : TreewidthLE G S k) {ι : Type*} {J : Finset ι}
    (branch : ι → Finset V) (centre : ι → V) (hsub : ∀ j ∈ J, branch j ⊆ S) (hcentre : ∀ j ∈ J, centre j ∈ branch j)
    (hstar : ∀ j ∈ J, ∀ v ∈ branch j, v ≠ centre j → G.Adj (centre j) v)
    (hdisjoint : ∀ j ∈ J, ∀ l ∈ J, j ≠ l → Disjoint (branch j) (branch l))
    (htouch : ∀ j ∈ J, ∀ l ∈ J, j ≠ l → ∃ u ∈ branch j, ∃ v ∈ branch l, G.Adj u v) : J.card ≤ k + 1 := by
  classical
  obtain ⟨D, hwidth⟩ := h
  rcases J.eq_empty_or_nonempty with rfl | hJ
  · exact Nat.zero_le _
  · -- the nodes that a star meets are connected
    have hconnected : ∀ j ∈ J, ∃ t, Subtree D.parent (fun i => ∃ v ∈ branch j, v ∈ D.bag i) t := by
      intro j hj
      have hgrow : ∀ B ⊆ branch j, ∃ t,
          Subtree D.parent (fun i => centre j ∈ D.bag i ∨ ∃ v ∈ B, v ∈ D.bag i) t := by
        intro B
        induction B using Finset.induction_on with
        | empty =>
            intro _
            refine ⟨D.top (centre j), ?_⟩
            simpa using D.subtree _ (hsub j hj (hcentre j hj))
        | @insert v B hv ih =>
            intro hB
            obtain ⟨hvj, hBj⟩ := Finset.insert_subset_iff.mp hB
            obtain ⟨t, ht⟩ := ih hBj
            have hmeet : ∃ x, centre j ∈ D.bag x ∧ v ∈ D.bag x := by
              by_cases heq : v = centre j
              · have htop := (D.subtree _ (hsub j hj hvj)).top_mem
                exact ⟨D.top v, heq ▸ htop, htop⟩
              · exact D.edge _ (hsub j hj (hcentre j hj)) v (hsub j hj hvj) (hstar j hj v hvj heq)
            obtain ⟨x, hx, hxv⟩ := hmeet
            obtain ⟨u, hu⟩ := ht.exists_union D.parent_lt (D.subtree v (hsub j hj hvj)) (.inl hx) hxv
            refine ⟨u, ?_⟩
            have hsame : (fun i => (centre j ∈ D.bag i ∨ ∃ v ∈ B, v ∈ D.bag i) ∨ v ∈ D.bag i) =
                fun i => centre j ∈ D.bag i ∨ ∃ w ∈ insert v B, w ∈ D.bag i := by
              funext i
              simp only [Finset.exists_mem_insert, eq_iff_iff]
              exact or_assoc.trans (or_congr_right or_comm)
            rwa [hsame] at hu
      obtain ⟨t, ht⟩ := hgrow (branch j) subset_rfl
      refine ⟨t, ?_⟩
      have hsame : (fun i => centre j ∈ D.bag i ∨ ∃ v ∈ branch j, v ∈ D.bag i) =
          fun i => ∃ v ∈ branch j, v ∈ D.bag i := by
        funext i
        exact propext ⟨fun h => h.elim (fun h => ⟨_, hcentre j hj, h⟩) id, .inr⟩
      rwa [hsame] at ht
    choose! top htop using hconnected
    obtain ⟨t, ht⟩ := Subtree.helly D.parent_lt hJ _ htop (by
      intro j hj l hl
      by_cases hjl : j = l
      · subst hjl
        exact ⟨_, (htop j hj).top_mem, (htop j hj).top_mem⟩
      · obtain ⟨u, hu, v, hv, hadj⟩ := htouch j hj l hl hjl
        obtain ⟨x, hux, hvx⟩ := D.edge u (hsub j hj hu) v (hsub l hl hv) hadj
        exact ⟨x, ⟨u, hu, hux⟩, v, hv, hvx⟩)
    have : Nonempty V := ⟨centre hJ.choose⟩
    choose! pick hpick hbag using ht
    have hinj : Set.InjOn pick (J : Set ι) := by
      intro j hj l hl heq
      by_contra hjl
      have hl' := hpick l hl
      rw [← heq] at hl'
      exact Finset.disjoint_left.mp (hdisjoint j hj l hl hjl) (hpick j hj) hl'
    rw [← Finset.card_image_of_injOn hinj]
    refine (Finset.card_le_card fun x hx => ?_).trans (hwidth t)
    obtain ⟨j, hj, rfl⟩ := Finset.mem_image.mp hx
    exact hbag j hj

/-- The lower bound by pairs: disjoint edges of which any two are joined from the first end of one to the
    second end of the other. -/
theorem card_le_of_pairs [DecidableEq V] (h : TreewidthLE G S k) {ι : Type*} [Fintype ι] {a b : ι → V}
    (ha : ∀ i, a i ∈ S) (hb : ∀ i, b i ∈ S) (hainj : a.Injective) (hbinj : b.Injective)
    (hne : ∀ i j, a i ≠ b j) (hpair : ∀ i j, G.Adj (a i) (b j) ∨ G.Adj (a j) (b i)) :
    Fintype.card ι ≤ k + 1 := by
  rw [← Finset.card_univ]
  refine h.branches_le (fun i => {a i, b i}) a ?_ ?_ ?_ ?_ ?_
  · intro i _ v hv
    rcases Finset.mem_insert.mp hv with rfl | hv
    · exact ha i
    · rw [Finset.mem_singleton.mp hv]
      exact hb i
  · exact fun i _ => Finset.mem_insert_self _ _
  · intro i _ v hv hcentre
    rw [Finset.mem_singleton.mp ((Finset.mem_insert.mp hv).resolve_left hcentre)]
    exact (hpair i i).elim id id
  · intro i _ j _ hij
    rw [Finset.disjoint_left]
    intro v hvi hvj
    simp only [Finset.mem_insert, Finset.mem_singleton] at hvi hvj
    rcases hvi with rfl | rfl <;> rcases hvj with heq | heq
    · exact hij (hainj heq)
    · exact hne i j heq
    · exact hne j i heq.symm
    · exact hij (hbinj heq)
  · intro i _ j _ _
    rcases hpair i j with hadj | hadj
    · exact ⟨a i, by simp, b j, by simp, hadj⟩
    · exact ⟨b i, by simp, a j, by simp, hadj.symm⟩

end TreewidthLE

end Foundation
