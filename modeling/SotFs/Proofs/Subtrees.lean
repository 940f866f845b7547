/-
Module: SotFs.Proofs.Subtrees
Layer: Proofs
Purpose: What lies below a directory. `Leads` says which inode slot a user name of a directory leads to,
  `Within` which directories a directory has below it, and `Under` which inodes. For each edit of names the
  first half says where the names lead afterwards; the second half says what that does to a subtree.
Trusted boundary: none
Main exports: TypeGraph.Leads, TypeGraph.Within, TypeGraph.Under, NameMade, NameTaken, NameMoved,
  rename_under_before, rename_under_iff
-/
import SotFs.Proofs.EditFrames

namespace SotFs

open Relation Foundation

/-- In a table of entries, the user name `n` of directory `c` leads to the inode in slot `j`. -/
def LeadsIn (entries : EdgeId → Option (DirId × InodeId × String)) (c : DirId) (n : String) (j : Nat) :
    Prop := UserName n ∧ ∃ e t, entries e = some (c, t, n) ∧ idToArena t = j

namespace LeadsIn

variable {entries : EdgeId → Option (DirId × InodeId × String)} {c p : DirId} {e : EdgeId} {t : InodeId}
  {n n' : String} {j : Nat}

/-- One name more. -/
theorem insert_iff (hvac : entries e = none) (hn : UserName n) :
    LeadsIn (Function.update entries e (some (p, t, n))) c n' j ↔
      LeadsIn entries c n' j ∨ c = p ∧ n' = n ∧ j = idToArena t := by
  constructor
  · rintro ⟨hn', x, t', hx, rfl⟩
    rw [Function.update_apply] at hx
    split at hx
    · cases hx
      exact .inr ⟨rfl, rfl, rfl⟩
    · exact .inl ⟨hn', x, t', hx, rfl⟩
  · rintro (⟨hn', x, t', hx, rfl⟩ | ⟨rfl, rfl, rfl⟩)
    · refine ⟨hn', x, t', ?_, rfl⟩
      rw [Function.update_of_ne]
      · exact hx
      · rintro rfl
        rw [hvac] at hx
        cases hx
    · exact ⟨hn, e, t, Function.update_self _ _ _, rfl⟩

/-- One name less. -/
theorem remove_iff (hnames : ∀ {x y d t t' n}, entries x = some (d, t, n) → entries y = some (d, t', n) → x = y)
    (he : entries e = some (p, t, n)) :
    LeadsIn (Function.update entries e none) c n' j ↔ LeadsIn entries c n' j ∧ (c, n') ≠ (p, n) := by
  constructor
  · rintro ⟨hn', x, t', hx, rfl⟩
    rw [Function.update_apply] at hx
    split at hx
    · cases hx
    · rename_i hxe
      refine ⟨⟨hn', x, t', hx, rfl⟩, ?_⟩
      intro heq
      cases heq
      exact hxe (hnames hx he)
  · rintro ⟨⟨hn', x, t', hx, rfl⟩, hne⟩
    refine ⟨hn', x, t', ?_, rfl⟩
    rw [Function.update_of_ne]
    · exact hx
    · rintro rfl
      rw [he] at hx
      cases hx
      exact hne rfl

/-- An entry that is no user name. -/
theorem insert_other_iff (hold : ∀ w, entries e = some w → ¬ UserName w.2.2) (hn : ¬ UserName n) :
    LeadsIn (Function.update entries e (some (p, t, n))) c n' j ↔ LeadsIn entries c n' j := by
  constructor
  · rintro ⟨hn', x, t', hx, rfl⟩
    rw [Function.update_apply] at hx
    split at hx
    · cases hx
      exact absurd hn' hn
    · exact ⟨hn', x, t', hx, rfl⟩
  · rintro ⟨hn', x, t', hx, rfl⟩
    refine ⟨hn', x, t', ?_, rfl⟩
    rw [Function.update_of_ne]
    · exact hx
    · rintro rfl
      exact hold _ hx hn'

end LeadsIn

/-- The user name `n` of directory `c` leads to the inode in slot `j`. -/
def TypeGraph.Leads (g : TypeGraph) : DirId → String → Nat → Prop := LeadsIn g.entries

/-- `c` is `d` or lies below it. -/
def TypeGraph.Within (g : TypeGraph) (d c : DirId) : Prop := ReflTransGen g.shape.Child d c

/-- A user name below `d` leads to the inode in slot `j`. -/
def TypeGraph.Under (g : TypeGraph) (d : DirId) (j : Nat) : Prop := ∃ c n, g.Within d c ∧ g.Leads c n j

namespace Inv

variable {g g' : TypeGraph} {c d m : DirId} {e : EdgeId} {t : InodeId} {n : String} {i : InodeId} {j : Nat}

/-! ### Reading the names -/

theorem leads_of_entry (he : g.entries e = some (c, t, n)) (hn : UserName n) :
    g.Leads c n (idToArena t) := ⟨hn, e, t, he, rfl⟩

/-- A name leads to one inode. -/
theorem leads_unique (h : Inv g) {j' : Nat} (hj : g.Leads c n j) (hj' : g.Leads c n j') : j = j' := by
  obtain ⟨_, e, t, he, rfl⟩ := hj
  obtain ⟨_, e', t', he', rfl⟩ := hj'
  cases h.names he he'
  rw [he] at he'
  cases he'
  rfl

/-- The name of a known entry. -/
theorem leads_iff_of_entry (h : Inv g) (he : g.entries e = some (c, t, n)) (hn : UserName n) :
    g.Leads c n j ↔ j = idToArena t := by
  constructor
  · exact fun hj => h.leads_unique hj (leads_of_entry he hn)
  · rintro rfl
    exact leads_of_entry he hn

/-- Lookup says where the names lead. -/
theorem leads_iff_resolve (h : Inv g) :
    g.Leads c n j ↔ UserName n ∧ ∃ t, g.resolveName c n = some t ∧ idToArena t = j := by
  constructor
  · rintro ⟨hn, e, t, he, ht⟩
    exact ⟨hn, t, h.resolveName_iff.mpr ⟨e, he⟩, ht⟩
  · rintro ⟨hn, t, hres, ht⟩
    obtain ⟨e, he⟩ := h.resolveName_iff.mp hres
    exact ⟨hn, e, t, he, ht⟩

theorem not_leads_of_free (hfree : ∀ x t, g.entries x ≠ some (c, t, n)) : ¬ g.Leads c n j := by
  rintro ⟨_, e, t, he, _⟩
  exact hfree e t he

/-- A directory is reached through its own inode id. -/
theorem entry_of_dir (h : Inv g) (hm : g.dirInode m = some i) (hlead : g.Leads c n i) :
    ∃ e, g.entries e = some (c, i, n) := by
  obtain ⟨_, e, t, he, ht⟩ := hlead
  obtain ⟨k, hk, hdir⟩ := h.shape.tgt_live he
  rw [ht, h.shape.dir_kind hm] at hk
  cases hk
  exact ⟨e, by rw [he, ← ht, hdir rfl]⟩

/-- A child is a directory that a user name leads to. -/
theorem child_iff (h : Inv g) {p : DirId} :
    g.shape.Child p c ↔ ∃ n i, g.dirInode c = some i ∧ g.Leads p n i := by
  constructor
  · rintro ⟨e, n, i, hc, hn, he⟩
    exact ⟨n, i, hc, hn, e, i, he, h.shape.dir_slot hc⟩
  · rintro ⟨n, i, hc, hlead⟩
    obtain ⟨e, he⟩ := h.entry_of_dir hc hlead
    exact ⟨e, n, i, hc, hlead.1, he⟩

/-- A directory has one name. -/
theorem leads_dir_unique (h : Inv g) {c' : DirId} {n' : String} (hm : g.dirInode m = some i)
    (hlead : g.Leads c n i) (hlead' : g.Leads c' n' i) : c = c' ∧ n = n' := by
  obtain ⟨e, he⟩ := h.entry_of_dir hm hlead
  obtain ⟨e', he'⟩ := h.entry_of_dir hm hlead'
  cases h.shape.entry_unique hm hlead.1 hlead'.1 he he'
  rw [he] at he'
  cases he'
  exact ⟨rfl, rfl⟩

/-- A name leads from a live directory. -/
theorem leads_src (h : Inv g) (hlead : g.Leads c n j) : ∃ i, g.dirInode c = some i := by
  obtain ⟨_, e, t, he, _⟩ := hlead
  exact h.shape.src_live he

/-- A name leads to a live inode. -/
theorem leads_live (h : Inv g) (hlead : g.Leads c n j) : ∃ k, g.kinds j = some k := by
  obtain ⟨_, e, t, he, rfl⟩ := hlead
  obtain ⟨k, hk, _⟩ := h.shape.tgt_live he
  exact ⟨k, hk⟩

theorem under_live (h : Inv g) (hunder : g.Under d j) : ∃ k, g.kinds j = some k := by
  obtain ⟨_, _, _, hlead⟩ := hunder
  exact h.leads_live hlead

/-! ### Where the names lead after an edit -/

variable {inode : Inode} {p q td : DirId} {pi qi ti : InodeId} {n₁ n' : String}

theorem enterInode_leads (h : Inv g) (he : g.nextEdge < EDGE_CAPACITY) (hn : UserName n) :
    (g.enterInode inode p n).Leads c n' j ↔ g.Leads c n' j ∨ c = p ∧ n' = n ∧ j = g.nextInode := by
  rw [TypeGraph.Leads, h.enterInode_entries _ _ _ he, LeadsIn.insert_iff (h.entries_fresh le_rfl) hn,
    h.inodeIds.slot_next]
  rfl

theorem enterLink_leads (h : Inv g) (he : g.nextEdge < EDGE_CAPACITY) (hn : UserName n) :
    (g.enterLink p t n).Leads c n' j ↔ g.Leads c n' j ∨ c = p ∧ n' = n ∧ j = idToArena t := by
  rw [TypeGraph.Leads, h.enterLink_entries he, LeadsIn.insert_iff (h.entries_fresh le_rfl) hn]
  rfl

/-- The entries of the new directory itself are no user names. -/
theorem enterDir_leads (h : Inv g) (he : g.nextEdge + 3 ≤ EDGE_CAPACITY) (hn : UserName n) :
    (g.enterDir inode p pi n).Leads c n' j ↔ g.Leads c n' j ∨ c = p ∧ n' = n ∧ j = g.nextInode := by
  have hvac : ∀ {x}, g.nextEdge ≤ x → g.entries x = none := h.entries_fresh
  rw [TypeGraph.Leads, h.enterDir_entries _ _ _ _ he, LeadsIn.insert_other_iff _ (fun hn => hn.2 rfl),
    LeadsIn.insert_other_iff _ (fun hn => hn.1 rfl), LeadsIn.insert_iff (hvac le_rfl) hn,
    h.inodeIds.slot_next]
  · rfl
  · intro w hw
    rw [Function.update_of_ne (by simp), hvac (by simp)] at hw
    cases hw
  · intro w hw
    rw [Function.update_of_ne (by simp), Function.update_of_ne (show g.nextEdge + 1 + 1 ≠ g.nextEdge by omega),
      hvac (by omega)] at hw
    cases hw

theorem dropName_leads (h : Inv g) (he : g.entries e = some (p, t, n)) :
    (g.dropName e p t).Leads c n' j ↔ g.Leads c n' j ∧ (c, n') ≠ (p, n) := by
  rw [TypeGraph.Leads, h.dropName_entries he]
  exact LeadsIn.remove_iff h.names he

theorem dropLastName_leads (h : Inv g) {i : Inode} (he : g.entries e = some (p, t, n)) (hn : UserName n)
    (ht : g.getInode t = some i) (hkind : i.vtype ≠ .directory) :
    (g.dropLastName e p t).Leads c n' j ↔ g.Leads c n' j ∧ (c, n') ≠ (p, n) := by
  rw [TypeGraph.Leads, h.dropLastName_entries he hn ht hkind]
  exact LeadsIn.remove_iff h.names he

/-- The removed directory had no user names. -/
theorem dropDir_leads (h : Inv g) (he : g.entries e = some (p, ti, n)) (htd : g.dirInode td = some ti)
    (hempty : ∀ x t m, g.entries x = some (td, t, m) → ¬ UserName m) :
    (g.dropDir p n ti td).Leads c n' j ↔ g.Leads c n' j ∧ (c, n') ≠ (p, n) := by
  have hentries : ∀ {x w}, (g.dropDir p n ti td).entries x = some w ↔
      x ≠ e ∧ w.1 ≠ td ∧ g.entries x = some w := h.dropDir_entries he htd
  constructor
  · rintro ⟨hn', x, t', hx, rfl⟩
    obtain ⟨hxe, _, hold⟩ := hentries.mp hx
    refine ⟨⟨hn', x, t', hold, rfl⟩, ?_⟩
    intro heq
    cases heq
    exact hxe (h.names hold he)
  · rintro ⟨⟨hn', x, t', hx, rfl⟩, hne⟩
    refine ⟨hn', x, t', hentries.mpr ⟨?_, ?_, hx⟩, rfl⟩
    · rintro rfl
      rw [he] at hx
      cases hx
      exact hne rfl
    · rintro rfl
      exact hempty _ _ _ hx hn'

/-- A name that gives way to another of the same inode: what a rename in place does. -/
theorem renameEntry_leads (h : Inv g) (he : g.entries e = some (p, t, n)) (hne : n ≠ n₁)
    (hn₁ : UserName n₁) :
    (g.renameContainsEdge e n₁).2.Leads c n' j ↔
      g.Leads c n' j ∧ (c, n') ≠ (p, n) ∨ c = p ∧ n' = n₁ ∧ j = idToArena t := by
  have hentries : (g.renameContainsEdge e n₁).2.entries =
      Function.update g.entries e (some (p, t, n₁)) := Arena.view_update (h.renameEntry_edges he hne)
  rw [TypeGraph.Leads, hentries, ← Function.update_idem (a := e) none, LeadsIn.insert_iff _ hn₁,
    LeadsIn.remove_iff h.names he]
  · rfl
  · exact Function.update_self _ _ _

theorem movedEntry_leads (h : Inv g) (he : g.entries e = some (p, t, n)) (hn₁ : UserName n₁)
    (hcap : g.nextEdge < EDGE_CAPACITY) :
    (g.movedEntry e p t n q n₁).Leads c n' j ↔
      g.Leads c n' j ∧ (c, n') ≠ (p, n) ∨ c = q ∧ n' = n₁ ∧ j = idToArena t := by
  rw [TypeGraph.Leads, h.movedEntry_entries _ _ _ _ _ _ hcap, LeadsIn.insert_iff _ hn₁, LeadsIn.remove_iff h.names he]
  · rfl
  · rw [Function.update_apply]
    split
    · rfl
    · exact h.entries_fresh le_rfl

theorem moveFileEntry_leads (h : Inv g) {i : Inode} (he : g.entries e = some (p, t, n))
    (hn₁ : UserName n₁) (hcap : g.nextEdge < EDGE_CAPACITY) (ht : g.getInode t = some i)
    (hkind : i.vtype ≠ .directory) :
    (g.moveEntry e p t q n₁).Leads c n' j ↔
      g.Leads c n' j ∧ (c, n') ≠ (p, n) ∨ c = q ∧ n' = n₁ ∧ j = idToArena t := by
  rw [h.moveFileEntry_eq he ht hkind]
  exact h.movedEntry_leads he hn₁ hcap

/-- The ".." that follows a moved directory is no user name. -/
theorem moveDirEntry_leads (h : Inv g) (he : g.entries e = some (p, t, n)) (hn : UserName n)
    (hq : g.dirInode q = some qi) (hn₁ : UserName n₁) (hfree : ∀ x t', g.entries x ≠ some (q, t', n₁))
    (hcap : g.nextEdge < EDGE_CAPACITY) (hm : g.dirInode m = some t) :
    (g.moveEntry e p t q n₁).Leads c n' j ↔
      g.Leads c n' j ∧ (c, n') ≠ (p, n) ∨ c = q ∧ n' = n₁ ∧ j = idToArena t := by
  obtain ⟨x, old, hx⟩ := h.exists_dotdot hm he hn
  rw [← h.movedEntry_leads (q := q) he hn₁ hcap, TypeGraph.Leads,
    h.moveDirEntry_entries he hn hq hfree hcap hm hx, LeadsIn.insert_other_iff _ (fun hn => hn.2 rfl)]
  · rfl
  · intro w hw
    rw [h.movedEntry_dotdot he hn hcap hx] at hw
    cases hw
    exact fun hn => hn.2 rfl

end Inv

/-! ### Creation

A name is made and a directory may be; the subtrees that reach the name grow by its inode. -/

/-- The calls that make names make one: in `p`, of the inode in slot `j`, which is no directory that was
    there before. -/
structure NameMade (g g' : TypeGraph) (p : DirId) (n : String) (j : Nat) : Prop where
  leads : ∀ {c n' x}, g'.Leads c n' x ↔ g.Leads c n' x ∨ c = p ∧ n' = n ∧ x = j
  dirs : ∀ {c i}, g.dirInode c = some i → i ≠ j ∧ g'.dirInode c = some i

namespace NameMade

variable {g g' : TypeGraph} {p d c : DirId} {n : String} {j x : Nat}

/-- The old directories have the old children. -/
theorem child_iff (hm : NameMade g g' p n j) (h : Inv g) (h' : Inv g') {i : InodeId}
    (hc : g.dirInode c = some i) : g'.shape.Child d c ↔ g.shape.Child d c := by
  obtain ⟨hij, hc'⟩ := hm.dirs hc
  rw [h.child_iff, h'.child_iff]
  constructor
  · rintro ⟨n', i', hi', hlead⟩
    rw [hc'] at hi'
    cases hi'
    rcases hm.leads.mp hlead with hlead | ⟨_, _, rfl⟩
    · exact ⟨n', i, hc, hlead⟩
    · exact absurd rfl hij
  · rintro ⟨n', i', hi', hlead⟩
    rw [hc] at hi'
    cases hi'
    exact ⟨n', i, hc', hm.leads.mpr (.inl hlead)⟩

/-- The old directories lie where they lay. -/
theorem within_iff (hm : NameMade g g' p n j) (h : Inv g) (h' : Inv g') {ci : InodeId}
    (hc : g.dirInode c = some ci) : g'.Within d c ↔ g.Within d c := by
  constructor
  · intro hreach
    induction hreach generalizing ci with
    | refl => exact .refl
    | @tail b c _ hbc ih =>
        have hold := (hm.child_iff h h' hc).mp hbc
        obtain ⟨n', i, _, hlead⟩ := h.child_iff.mp hold
        obtain ⟨bi, hb⟩ := h.leads_src hlead
        exact (ih hb).tail hold
  · intro hreach
    refine ReflTransGen.mono ?_ _ _ hreach
    intro a b hchild
    obtain ⟨_, i, hb, _⟩ := h.child_iff.mp hchild
    exact (hm.child_iff h h' hb).mpr hchild

/-- The subtrees that hold `p` grow by the inode in slot `j`, the others stay as they are. -/
theorem under_iff (hm : NameMade g g' p n j) (h : Inv g) (h' : Inv g') {pi : InodeId}
    (hp : g.dirInode p = some pi) : g'.Under d x ↔ g.Under d x ∨ g.Within d p ∧ x = j := by
  constructor
  · rintro ⟨c, n', hwithin, hlead⟩
    rcases hm.leads.mp hlead with hlead | ⟨rfl, _, rfl⟩
    · obtain ⟨ci, hc⟩ := h.leads_src hlead
      exact .inl ⟨c, n', (hm.within_iff h h' hc).mp hwithin, hlead⟩
    · exact .inr ⟨(hm.within_iff h h' hp).mp hwithin, rfl⟩
  · rintro (⟨c, n', hwithin, hlead⟩ | ⟨hwithin, rfl⟩)
    · obtain ⟨ci, hc⟩ := h.leads_src hlead
      exact ⟨c, n', (hm.within_iff h h' hc).mpr hwithin, hm.leads.mpr (.inl hlead)⟩
    · exact ⟨p, n, (hm.within_iff h h' hp).mpr hwithin, hm.leads.mpr (.inr ⟨rfl, rfl, rfl⟩)⟩

end NameMade

/-! ### Removal

A name goes, with its directory if it leads to one. -/

/-- The name `n` of `p` is gone, if it was there, and with it the directory it led to. -/
structure NameTaken (g g' : TypeGraph) (p : DirId) (n : String) : Prop where
  leads : ∀ {c n' x}, g'.Leads c n' x ↔ g.Leads c n' x ∧ (c, n') ≠ (p, n)
  dirs : ∀ {c i}, g'.dirInode c = some i ↔ g.dirInode c = some i ∧ ¬ g.Leads p n i
  empty : ∀ {m i}, g.dirInode m = some i → g.Leads p n i → ∀ n' x, ¬ g.Leads m n' x

namespace NameTaken

variable {g g' : TypeGraph} {p d c : DirId} {n n' : String} {x : Nat}

/-- What a directory with names led to is still there. -/
theorem src_live (ht : NameTaken g g' p n) (h : Inv g) (hlead : g.Leads c n' x) :
    ∃ i, g'.dirInode c = some i := by
  obtain ⟨i, hi⟩ := h.leads_src hlead
  exact ⟨i, ht.dirs.mpr ⟨hi, fun hgone => ht.empty hi hgone n' x hlead⟩⟩

/-- The remaining directories have the parents they had. -/
theorem child_iff (ht : NameTaken g g' p n) (h : Inv g) (h' : Inv g') {i : InodeId}
    (hc : g'.dirInode c = some i) : g'.shape.Child d c ↔ g.shape.Child d c := by
  obtain ⟨hi, hkept⟩ := ht.dirs.mp hc
  rw [h.child_iff, h'.child_iff]
  constructor
  · rintro ⟨n', i', hi', hlead⟩
    exact ⟨n', i', (ht.dirs.mp hi').1, (ht.leads.mp hlead).1⟩
  · rintro ⟨n', i', hi', hlead⟩
    rw [hi] at hi'
    cases hi'
    refine ⟨n', i, hc, ht.leads.mpr ⟨hlead, ?_⟩⟩
    intro heq
    cases heq
    exact hkept hlead

theorem within_before (ht : NameTaken g g' p n) (h : Inv g) (h' : Inv g') (hreach : g'.Within d c) :
    g.Within d c := by
  refine ReflTransGen.mono ?_ _ _ hreach
  intro a b hchild
  obtain ⟨_, i, hb, _⟩ := h'.child_iff.mp hchild
  exact (ht.child_iff h h' hb).mp hchild

/-- The remaining directories lie where they lay: no path to them passes through the removed one. -/
theorem within_iff (ht : NameTaken g g' p n) (h : Inv g) (h' : Inv g') {ci : InodeId}
    (hc : g'.dirInode c = some ci) : g'.Within d c ↔ g.Within d c := by
  refine ⟨ht.within_before h h', ?_⟩
  intro hreach
  induction hreach generalizing ci with
  | refl => exact .refl
  | @tail b c _ hbc ih =>
      obtain ⟨n', i, _, hlead⟩ := h.child_iff.mp hbc
      obtain ⟨bi, hb⟩ := ht.src_live h hlead
      exact (ih hb).tail ((ht.child_iff h h' hc).mpr hbc)

/-- What remains below a directory has a name there that was not taken. -/
theorem under_iff (ht : NameTaken g g' p n) (h : Inv g) (h' : Inv g') :
    g'.Under d x ↔ ∃ c n', g.Within d c ∧ g.Leads c n' x ∧ (c, n') ≠ (p, n) := by
  constructor
  · rintro ⟨c, n', hwithin, hlead⟩
    obtain ⟨hold, hne⟩ := ht.leads.mp hlead
    exact ⟨c, n', ht.within_before h h' hwithin, hold, hne⟩
  · rintro ⟨c, n', hwithin, hlead, hne⟩
    obtain ⟨ci, hc⟩ := ht.src_live h hlead
    exact ⟨c, n', (ht.within_iff h h' hc).mpr hwithin, ht.leads.mpr ⟨hlead, hne⟩⟩

end NameTaken

/-! ### Moves

A name gives way to another of the same inode; a directory that it leads to goes with it. -/

/-- The name `sn` of `sd` is now the name `dn` of `dd`, which was free. -/
structure NameMoved (g g' : TypeGraph) (sd : DirId) (sn : String) (dd : DirId) (dn : String) : Prop where
  leads : ∀ {c n x}, g'.Leads c n x ↔
    g.Leads c n x ∧ (c, n) ≠ (sd, sn) ∨ c = dd ∧ n = dn ∧ g.Leads sd sn x
  dirs : g'.dirInode = g.dirInode
  outside : ∀ {m i}, g.dirInode m = some i → g.Leads sd sn i → ¬ g.Within m dd

namespace NameMoved

variable {g g' : TypeGraph} {sd dd d c : DirId} {sn dn : String} {x : Nat}

/-- The only new child is the moved directory. -/
theorem child_before (hm : NameMoved g g' sd sn dd dn) (h : Inv g) (h' : Inv g') {p : DirId}
    (hchild : g'.shape.Child p c) :
    g.shape.Child p c ∨ p = dd ∧ ∃ i, g.dirInode c = some i ∧ g.Leads sd sn i := by
  obtain ⟨n, i, hc, hlead⟩ := h'.child_iff.mp hchild
  rw [hm.dirs] at hc
  rcases hm.leads.mp hlead with ⟨hlead, _⟩ | ⟨rfl, _, hlead⟩
  · exact .inl (h.child_iff.mpr ⟨n, i, hc, hlead⟩)
  · exact .inr ⟨rfl, i, hc, hlead⟩

/-- The other children stay. -/
theorem child_after (hm : NameMoved g g' sd sn dd dn) (h : Inv g) (h' : Inv g') {p : DirId}
    (hchild : g.shape.Child p c) (hother : ∀ i, g.dirInode c = some i → ¬ g.Leads sd sn i) :
    g'.shape.Child p c := by
  obtain ⟨n, i, hc, hlead⟩ := h.child_iff.mp hchild
  refine h'.child_iff.mpr ⟨n, i, by rw [hm.dirs, hc], hm.leads.mpr (.inl ⟨hlead, ?_⟩)⟩
  intro heq
  cases heq
  exact hother i hc hlead

/-- Where a directory lies after the move it lay before, or it came along. -/
theorem within_before (hm : NameMoved g g' sd sn dd dn) (h : Inv g) (h' : Inv g')
    (hreach : g'.Within d c) :
    g.Within d c ∨
      g.Within d dd ∧ ∃ m i, g.dirInode m = some i ∧ g.Leads sd sn i ∧ g.Within m c := by
  by_cases hdir : ∃ m i, g.dirInode m = some i ∧ g.Leads sd sn i
  · obtain ⟨m, i, hmi, hlead⟩ := hdir
    have hsub : ∀ p c, g'.shape.Child p c → g.shape.Child p c ∨ p = dd ∧ c = m := by
      intro p c hchild
      rcases hm.child_before h h' hchild with hold | ⟨hp, i', hc, hlead'⟩
      · exact .inl hold
      · cases h.leads_unique hlead hlead'
        exact .inr ⟨hp, h.shape.dir_inj hc hmi⟩
    rcases RootedTree.reach_before_reparent hsub hreach with hold | ⟨hdd, hmc⟩
    · exact .inl hold
    · exact .inr ⟨hdd, m, i, hmi, hlead, hmc⟩
  · refine .inl (ReflTransGen.mono ?_ _ _ hreach)
    intro a b hchild
    rcases hm.child_before h h' hchild with hold | ⟨_, i, hb, hlead⟩
    · exact hold
    · exact absurd ⟨b, i, hb, hlead⟩ hdir

/-- A directory stays where it lay, unless it goes with a moved directory out of the subtree. -/
theorem within_after (hm : NameMoved g g' sd sn dd dn) (h : Inv g) (h' : Inv g')
    (hstay : ∀ m i, g.dirInode m = some i → g.Leads sd sn i → g.Within d sd → g.Within d dd)
    (hreach : g.Within d c) : g'.Within d c := by
  by_cases hdir : ∃ m i, g.dirInode m = some i ∧ g.Leads sd sn i
  · obtain ⟨m, i, hmi, hlead⟩ := hdir
    have hkeep : ∀ p c, g.shape.Child p c → c ≠ m → g'.shape.Child p c := by
      intro p c hchild hcm
      refine hm.child_after h h' hchild ?_
      intro i' hc hlead'
      cases h.leads_unique hlead hlead'
      exact hcm (h.shape.dir_inj hc hmi)
    have hnew : g'.shape.Child dd m :=
      h'.child_iff.mpr ⟨dn, i, by rw [hm.dirs, hmi], hm.leads.mpr (.inr ⟨rfl, rfl, hlead⟩)⟩
    by_cases hdd : g.Within d dd
    · exact RootedTree.reach_of_reparent (hm.outside hmi hlead) hkeep hnew hdd hreach
    · refine RootedTree.reach_of_untouched hkeep ?_ hreach
      intro p hchild hp
      obtain ⟨n, i', hmi', hlead'⟩ := h.child_iff.mp hchild
      rw [hmi] at hmi'
      cases hmi'
      obtain ⟨rfl, _⟩ := h.leads_dir_unique hmi hlead' hlead
      exact hdd (hstay m i hmi hlead hp)
  · refine ReflTransGen.mono ?_ _ _ hreach
    intro a b hchild
    exact hm.child_after h h' hchild fun i hb hlead => hdir ⟨b, i, hb, hlead⟩

end NameMoved

/-! ### Rename: a removal, then a move -/

/-- The inode in slot `x` is the one the name leads to, or lies below it. -/
def TypeGraph.LeadsUnder (g : TypeGraph) (c : DirId) (n : String) (x : Nat) : Prop :=
  g.Leads c n x ∨ ∃ m i, g.dirInode m = some i ∧ g.Leads c n i ∧ g.Under m x

section Rename

variable {g g₁ g' : TypeGraph} {sd dd d : DirId} {sn dn : String} {x : Nat}

/-- What lies below a directory after a rename lay there before, or the rename brought it. -/
theorem rename_under_before (ht : NameTaken g g₁ dd dn) (hm : NameMoved g₁ g' sd sn dd dn) (h : Inv g)
    (h₁ : Inv g₁) (h' : Inv g') (hunder : g'.Under d x) :
    g.Under d x ∨ g.Within d dd ∧ g.LeadsUnder sd sn x := by
  obtain ⟨c, n, hwithin, hlead⟩ := hunder
  have hbefore := hm.within_before h₁ h' hwithin
  rcases hm.leads.mp hlead with ⟨hlead, _⟩ | ⟨rfl, rfl, hlead⟩
  · have hold := (ht.leads.mp hlead).1
    rcases hbefore with hbefore | ⟨hdd, m, i, hmi, hsrc, hmc⟩
    · exact .inl ⟨c, n, ht.within_before h h₁ hbefore, hold⟩
    · exact .inr ⟨ht.within_before h h₁ hdd, .inr ⟨m, i, (ht.dirs.mp hmi).1, (ht.leads.mp hsrc).1,
        c, n, ht.within_before h h₁ hmc, hold⟩⟩
  · have hold := (ht.leads.mp hlead).1
    rcases hbefore with hbefore | ⟨hdd, _⟩
    · exact .inr ⟨ht.within_before h h₁ hbefore, .inl hold⟩
    · exact .inr ⟨ht.within_before h h₁ hdd, .inl hold⟩

/-- What lies below a directory after a rename that moves no directory into the subtree or out of it. -/
theorem rename_under_iff (ht : NameTaken g g₁ dd dn) (hm : NameMoved g₁ g' sd sn dd dn) (h : Inv g)
    (h₁ : Inv g₁) (h' : Inv g') (hne : (sd, sn) ≠ (dd, dn)) {di : InodeId} (hdd : g₁.dirInode dd = some di)
    (hstay : ∀ m i, g.dirInode m = some i → g.Leads sd sn i → (g.Within d sd ↔ g.Within d dd)) :
    g'.Under d x ↔
      (∃ c n, g.Within d c ∧ g.Leads c n x ∧ (c, n) ≠ (sd, sn) ∧ (c, n) ≠ (dd, dn)) ∨
        g.Within d dd ∧ g.Leads sd sn x := by
  have hstay₁ : ∀ m i, g₁.dirInode m = some i → g₁.Leads sd sn i → g₁.Within d sd → g₁.Within d dd := by
    intro m i hmi hlead hsd
    have hside := hstay m i (ht.dirs.mp hmi).1 (ht.leads.mp hlead).1
    exact (ht.within_iff h h₁ hdd).mpr (hside.mp (ht.within_before h h₁ hsd))
  constructor
  · rintro ⟨c, n, hwithin, hlead⟩
    have hbefore : g.Within d c := by
      rcases hm.within_before h₁ h' hwithin with hbefore | ⟨hdd, m, i, hmi, hsrc, hmc⟩
      · exact ht.within_before h h₁ hbefore
      · have hmi' := (ht.dirs.mp hmi).1
        have hsrc' := (ht.leads.mp hsrc).1
        have hsd := (hstay m i hmi' hsrc').mpr (ht.within_before h h₁ hdd)
        have hdm : g.Within d m := hsd.tail (h.child_iff.mpr ⟨sn, i, hmi', hsrc'⟩)
        exact hdm.trans (ht.within_before h h₁ hmc)
    rcases hm.leads.mp hlead with ⟨hlead, hsrc⟩ | ⟨rfl, rfl, hlead⟩
    · obtain ⟨hold, hdst⟩ := ht.leads.mp hlead
      exact .inl ⟨c, n, hbefore, hold, hsrc, hdst⟩
    · exact .inr ⟨hbefore, (ht.leads.mp hlead).1⟩
  · rintro (⟨c, n, hwithin, hlead, hsrc, hdst⟩ | ⟨hwithin, hlead⟩)
    · obtain ⟨ci, hc⟩ := ht.src_live h hlead
      have hafter := hm.within_after h₁ h' hstay₁ ((ht.within_iff h h₁ hc).mpr hwithin)
      exact ⟨c, n, hafter, hm.leads.mpr (.inl ⟨ht.leads.mpr ⟨hlead, hdst⟩, hsrc⟩)⟩
    · have hafter := hm.within_after h₁ h' hstay₁ ((ht.within_iff h h₁ hdd).mpr hwithin)
      exact ⟨dd, dn, hafter, hm.leads.mpr (.inr ⟨rfl, rfl, ht.leads.mpr ⟨hlead, hne⟩⟩)⟩

end Rename

end SotFs
