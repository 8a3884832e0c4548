import ExplicitNull.Proofs.Paths

/-!
What stands where in a tree after an entry is set or taken away. A tree of files is well formed if
every entry lies in a directory, under a name that a directory can hold. The frame of a tree is
what is left of it without its files. Files come and go without a change of the frame, and a tree
stays well formed meanwhile.
-/
namespace ExplicitNull

def Entry.isFile : Entry → Bool
  | .file _ => true
  | .link _ | .directory => false

structure Path.IsEntryName (name : Bytes) : Prop extends Path.IsName name where
  no_zero : 0 ∉ name
  short : name.length ≤ Tree.maxNameLength

theorem Path.isEntryName_iff {name : Bytes} : IsEntryName name ↔
    name ≠ [] ∧ byte '/' ∉ name ∧ name ≠ utf8 "." ∧ name ≠ utf8 ".." ∧ 0 ∉ name ∧
      name.length ≤ Tree.maxNameLength := by
  constructor
  · intro h
    exact ⟨h.nonempty, h.no_slash, h.not_here, h.not_parent, h.no_zero, h.short⟩
  · intro h
    exact ⟨⟨h.1, h.2.1, h.2.2.1, h.2.2.2.1⟩, h.2.2.2.2.1, h.2.2.2.2.2⟩

instance (name : Bytes) : Decidable (Path.IsEntryName name) :=
  decidable_of_iff _ Path.isEntryName_iff.symm

namespace Tree

variable {t t' : Tree} {loc : Location} {e : Entry}

@[simp] theorem get?_top (t : Tree) : t.get? [] = some .directory := if_pos rfl

theorem lookup_put (l loc : Location) (e : Entry) (entries : List (Location × Entry)) :
    lookup l (put loc e entries) = if l = loc then some e else lookup l entries := by
  induction entries with
  | nil => rfl
  | cons entry rest ih =>
    obtain ⟨loc', e'⟩ := entry
    by_cases hloc : loc = loc'
    · by_cases hl : l = loc' <;> simp [put, lookup, hloc, hl]
    · have hput : put loc e ((loc', e') :: rest) = (loc', e') :: put loc e rest := if_neg hloc
      rw [hput, lookup, ih, lookup]
      by_cases hl : l = loc <;> simp [hl, hloc]

theorem get?_set (t : Tree) (hloc : loc ≠ []) (e : Entry) (l : Location) :
    (t.set loc e).get? l = if l = loc then some e else t.get? l := by
  by_cases hl : l = []
  · subst hl
    simp [hloc.symm]
  · simp [get?, set, hl, lookup_put]

theorem lookup_filter_ne (l loc : Location) (entries : List (Location × Entry)) :
    lookup l (entries.filter (·.1 ≠ loc)) = if l = loc then none else lookup l entries := by
  induction entries with
  | nil => simp [lookup]
  | cons entry rest ih =>
    obtain ⟨loc', e'⟩ := entry
    by_cases hloc : loc' = loc
    · simp only [List.filter_cons, hloc, ne_eq, not_true_eq_false, decide_false, Bool.false_eq_true,
        if_false]
      rw [ih]
      by_cases hl : l = loc <;> simp [lookup, hl]
    · simp only [List.filter_cons, ne_eq, hloc, not_false_eq_true, decide_true, if_true, lookup]
      rw [ih]
      by_cases hl : l = loc
      · simp [hl, Ne.symm hloc]
      · simp [hl]

theorem get?_erase (t : Tree) (hloc : loc ≠ []) (l : Location) :
    (t.erase loc).get? l = if l = loc then none else t.get? l := by
  by_cases hl : l = []
  · subst hl
    simp [hloc.symm]
  · simp only [get?, erase, hl, if_false]
    exact lookup_filter_ne l loc t.entries

theorem mem_of_lookup {entries : List (Location × Entry)} (h : lookup loc entries = some e) :
    (loc, e) ∈ entries := by
  induction entries with
  | nil => cases h
  | cons entry rest ih =>
    obtain ⟨loc', e'⟩ := entry
    unfold lookup at h
    split at h
    · next hloc =>
      cases h
      rw [hloc]
      exact List.mem_cons_self ..
    · exact List.mem_cons_of_mem _ (ih h)

theorem lookup_of_mem {entries : List (Location × Entry)}
    (hnodup : (entries.map Prod.fst).Nodup) (h : (loc, e) ∈ entries) :
    lookup loc entries = some e := by
  induction entries with
  | nil => cases h
  | cons entry rest ih =>
    obtain ⟨loc', e'⟩ := entry
    rw [List.map_cons, List.nodup_cons] at hnodup
    rcases List.mem_cons.1 h with heq | hrest
    · cases heq
      simp [lookup]
    · have hne : loc ≠ loc' := by
        intro hloc
        apply hnodup.1
        exact List.mem_map.2 ⟨(loc, e), hrest, hloc⟩
      rw [lookup, if_neg hne]
      exact ih hnodup.2 hrest

theorem mem_entries_of_get? (hloc : loc ≠ []) (h : t.get? loc = some e) : (loc, e) ∈ t.entries := by
  rw [get?, if_neg hloc] at h
  exact mem_of_lookup h

/-- A tree that a file system can hold: no two entries at one location and none at the top, every
entry in a directory and under a proper name. -/
structure WellFormed (t : Tree) : Prop where
  nodup : (t.entries.map Prod.fst).Nodup
  top : [] ∉ t.entries.map Prod.fst
  parent : ∀ loc e, t.get? loc = some e → t.get? loc.dropLast = some .directory
  isEntryName : ∀ loc e, t.get? loc = some e → ∀ name ∈ loc, Path.IsEntryName name

theorem get?_of_mem (hnodup : (t.entries.map Prod.fst).Nodup) (hloc : loc ≠ [])
    (he : (loc, e) ∈ t.entries) : t.get? loc = some e := by
  rw [get?, if_neg hloc]
  exact lookup_of_mem hnodup he

/-- Looking at the entries suffices to tell whether a tree is well formed. -/
theorem wellFormed_iff : t.WellFormed ↔ (t.entries.map Prod.fst).Nodup ∧
    ∀ entry ∈ t.entries, entry.1 ≠ [] ∧ t.get? entry.1.dropLast = some .directory ∧
      ∀ name ∈ entry.1, Path.IsEntryName name := by
  constructor
  · intro h
    refine ⟨h.nodup, ?_⟩
    intro (loc, e) hmem
    have hloc : loc ≠ [] := fun hloc => h.top (hloc ▸ List.mem_map_of_mem hmem)
    have hget := get?_of_mem h.nodup hloc hmem
    exact ⟨hloc, h.parent loc e hget, h.isEntryName loc e hget⟩
  · intro ⟨hnodup, hentries⟩
    have hget : ∀ loc e, t.get? loc = some e → loc = [] ∨ (loc, e) ∈ t.entries := by
      intro loc e h
      by_cases hloc : loc = []
      · exact .inl hloc
      · exact .inr (mem_entries_of_get? hloc h)
    refine ⟨hnodup, ?_, ?_, ?_⟩
    · intro htop
      obtain ⟨entry, hmem, heq⟩ := List.mem_map.1 htop
      exact (hentries entry hmem).1 heq
    · intro loc e h
      rcases hget loc e h with hloc | hmem
      · simp [hloc]
      · exact (hentries _ hmem).2.1
    · intro loc e h
      rcases hget loc e h with hloc | hmem
      · simp [hloc]
      · exact (hentries _ hmem).2.2

instance (t : Tree) : Decidable t.WellFormed := decidable_of_iff _ wellFormed_iff.symm

/-- What a tree has at a location besides files. -/
def frame (t : Tree) (loc : Location) : Option Entry := (t.get? loc).filter (!·.isFile)

theorem frame_eq_some (h : e.isFile = false) : t.frame loc = some e ↔ t.get? loc = some e := by
  unfold frame
  cases hget : t.get? loc with
  | none => simp
  | some e' =>
    simp only [Option.filter_some]
    split <;> simp_all
    grind

theorem frame_eq_none : t.frame loc = none ↔
    t.get? loc = none ∨ ∃ bytes, t.get? loc = some (.file bytes) := by
  unfold frame
  cases hget : t.get? loc with
  | none => simp
  | some e' => cases e' <;> simp [Entry.isFile]

theorem get?_directory_congr (h : t.frame = t'.frame) (hloc : t.get? loc = some .directory) :
    t'.get? loc = some .directory := by
  apply (frame_eq_some rfl).1
  rw [← h]
  exact (frame_eq_some rfl).2 hloc

theorem get?_link_congr (h : t.frame = t'.frame) {target : Path}
    (hloc : t.get? loc = some (.link target)) : t'.get? loc = some (.link target) := by
  apply (frame_eq_some rfl).1
  rw [← h]
  exact (frame_eq_some rfl).2 hloc

theorem ne_nil_of_frame (h : t.frame loc = none) : loc ≠ [] := by
  intro hloc
  subst hloc
  simp [frame, Entry.isFile] at h

theorem frame_set_file (h : t.frame loc = none) (bytes : Bytes) :
    (t.set loc (.file bytes)).frame = t.frame := by
  funext l
  by_cases hl : l = loc
  · rw [hl, h]
    simp [frame, get?_set t (ne_nil_of_frame h), Entry.isFile]
  · simp [frame, get?_set t (ne_nil_of_frame h), hl]

theorem frame_erase (h : t.frame loc = none) : (t.erase loc).frame = t.frame := by
  funext l
  by_cases hl : l = loc
  · rw [hl, h]
    simp [frame, get?_erase t (ne_nil_of_frame h)]
  · simp [frame, get?_erase t (ne_nil_of_frame h), hl]

theorem map_fst_put (loc : Location) (e : Entry) (entries : List (Location × Entry)) :
    (put loc e entries).map Prod.fst =
      if loc ∈ entries.map Prod.fst then entries.map Prod.fst else entries.map Prod.fst ++ [loc] := by
  induction entries with
  | nil => rfl
  | cons entry rest ih =>
    obtain ⟨loc', e'⟩ := entry
    by_cases hloc : loc = loc'
    · simp [put, hloc]
    · have hput : put loc e ((loc', e') :: rest) = (loc', e') :: put loc e rest := if_neg hloc
      rw [hput, List.map_cons, ih, List.map_cons]
      by_cases hmem : loc ∈ rest.map Prod.fst
      · rw [if_pos hmem, if_pos (List.mem_cons_of_mem loc' hmem)]
      · rw [if_neg hmem, if_neg (by simp only [List.mem_cons, hloc, hmem, or_self, not_false_eq_true])]
        rfl

/-- A file may be set over all but a directory. -/
theorem WellFormed.set_over (ht : t.WellFormed) (hloc : t.get? loc ≠ some .directory)
    (hparent : t.get? loc.dropLast = some .directory)
    (hname : ∀ name ∈ loc, Path.IsEntryName name) (bytes : Bytes) :
    (t.set loc (.file bytes)).WellFormed := by
  have hne : loc ≠ [] := fun heq => hloc (heq ▸ get?_top t)
  have hget := get?_set t hne (.file bytes)
  refine ⟨?_, ?_, ?_, ?_⟩
  · rw [set, map_fst_put]
    split
    · exact ht.nodup
    · next hmem =>
      apply List.nodup_append.2
      refine ⟨ht.nodup, List.nodup_cons.2 ⟨List.not_mem_nil, List.nodup_nil⟩, ?_⟩
      intro l hl l' hl' heq
      rw [List.mem_singleton] at hl'
      exact hmem (hl' ▸ heq ▸ hl)
  · rw [set, map_fst_put]
    split
    · exact ht.top
    · intro hmem
      rcases List.mem_append.1 hmem with hmem | hmem
      · exact ht.top hmem
      · exact hne (List.mem_singleton.1 hmem).symm
  · intro l e hl
    have hdirectory : t.get? l.dropLast = some .directory := by
      rw [hget] at hl
      split at hl
      · next heq =>
        rw [heq]
        exact hparent
      · exact ht.parent l e hl
    rw [hget, if_neg]
    · exact hdirectory
    · intro heq
      exact hloc (heq ▸ hdirectory)
  · intro l e hl
    rw [hget] at hl
    split at hl
    · next heq =>
      rw [heq]
      exact hname
    · exact ht.isEntryName l e hl

theorem WellFormed.set_file (ht : t.WellFormed) (hframe : t.frame loc = none)
    (hparent : t.get? loc.dropLast = some .directory)
    (hname : ∀ name ∈ loc, Path.IsEntryName name) (bytes : Bytes) :
    (t.set loc (.file bytes)).WellFormed := by
  refine ht.set_over ?_ hparent hname bytes
  intro hdirectory
  rw [(frame_eq_some rfl).2 hdirectory] at hframe
  cases hframe

theorem WellFormed.erase (ht : t.WellFormed) (hframe : t.frame loc = none) :
    (t.erase loc).WellFormed where
  nodup := by
    rw [Tree.erase]
    exact ht.nodup.sublist (List.filter_sublist.map Prod.fst)
  top := by
    rw [Tree.erase]
    exact fun hmem => ht.top ((List.filter_sublist.map Prod.fst).subset hmem)
  parent l e hl := by
    rw [get?_erase t (ne_nil_of_frame hframe)] at hl
    split at hl
    · cases hl
    · exact get?_directory_congr (frame_erase hframe).symm (ht.parent l e hl)
  isEntryName l e hl := by
    rw [get?_erase t (ne_nil_of_frame hframe)] at hl
    split at hl
    · cases hl
    · exact ht.isEntryName l e hl

end Tree

end ExplicitNull
