import Mathlib.Data.Set.Insert
import ExplicitNull.Proofs.Listings

/-!
The state of a tree between a change and its way back. While changes are applied, the tree differs
from the one before only at the files that were changed and at their backups, and each backup
holds what its file held. A change enters its file into this difference, moving the backup home
takes it out again.
-/
namespace ExplicitNull

namespace Tree

structure IsSuffix (suffix : Bytes) : Prop where
  nonempty : suffix ≠ []
  no_slash : byte '/' ∉ suffix

/-- A file below a root that a change can be made to and taken back: nothing but a directory is
where its backup goes. -/
structure Ready (t : Tree) (root : Path) (here : Location) (suffix : Bytes) (x : Spot) : Prop where
  listed : t.Lists Discovery.mayEnter root here x
  clear : (x.backup suffix).fault? root = none →
    ∀ e, t.get? ((x.backup suffix).location here) = some e → e = .directory

/-- A file that was changed to its new text, with its backup where there was nothing. -/
structure Changed (t t' : Tree) (root : Path) (here : Location) (suffix : Bytes)
    (after : Path → Bytes) (x : Spot) : Prop where
  ready : t.Ready root here suffix x
  fits : x.fault? root = none
  backup_fits : (x.backup suffix).fault? root = none
  vacant : t.get? ((x.backup suffix).location here) = none
  bytes : ∃ old, t.get? (x.location here) = some (.file old) ∧
    t'.get? (x.location here) = some (.file (after (x.path root))) ∧
    t'.get? ((x.backup suffix).location here) = some (.file old)

/-- A tree that differs from an earlier one only in some changed files and their backups. -/
structure BackedUp (t t' : Tree) (root : Path) (here : Location) (suffix : Bytes)
    (after : Path → Bytes) (files : Set Spot) : Prop where
  wellFormed : t'.WellFormed
  frame : t.frame = t'.frame
  changed : ∀ x ∈ files, Changed t t' root here suffix after x
  same : ∀ loc, (∀ x ∈ files, loc ≠ x.location here ∧ loc ≠ (x.backup suffix).location here) →
    t'.get? loc = t.get? loc

variable {t t' : Tree} {root : Path} {here : Location} {suffix : Bytes} {after : Path → Bytes}
  {files : Set Spot} {x y : Spot} {old : Bytes}

theorem BackedUp.start (ht : t.WellFormed) : BackedUp t t root here suffix after ∅ where
  wellFormed := ht
  frame := rfl
  changed _ hx := hx.elim
  same _ _ := rfl

theorem Changed.location_ne_vacant (h : Changed t t' root here suffix after x) {loc : Location}
    (hloc : t.get? loc = none) : x.location here ≠ loc := by
  intro heq
  obtain ⟨old, hget, -⟩ := h.bytes
  rw [heq, hloc] at hget
  cases hget

theorem Changed.backup_ne_file (h : Changed t t' root here suffix after x) {loc : Location}
    (hloc : t.get? loc = some (.file old)) : (x.backup suffix).location here ≠ loc := by
  intro heq
  rw [← heq, h.vacant] at hloc
  cases hloc

/-- A file keeps its state while other places are set. -/
theorem Changed.congr {t'' : Tree} (h : Changed t t' root here suffix after x)
    (hfile : t''.get? (x.location here) = t'.get? (x.location here))
    (hbackup : t''.get? ((x.backup suffix).location here) =
      t'.get? ((x.backup suffix).location here)) : Changed t t'' root here suffix after x where
  ready := h.ready
  fits := h.fits
  backup_fits := h.backup_fits
  vacant := h.vacant
  bytes := by
    rw [hfile, hbackup]
    exact h.bytes

theorem BackedUp.frame_eq_none_of_file (h : BackedUp t t' root here suffix after files)
    (hold : t.get? (x.location here) = some (.file old)) : t'.frame (x.location here) = none := by
  rw [← h.frame]
  exact frame_eq_none.2 (.inr ⟨old, hold⟩)

theorem BackedUp.frame_eq_none_of_vacant (h : BackedUp t t' root here suffix after files)
    {loc : Location} (hvacant : t.get? loc = none) : t'.frame loc = none := by
  rw [← h.frame]
  exact frame_eq_none.2 (.inl hvacant)

def changeAt (t : Tree) (here : Location) (suffix : Bytes) (x : Spot) (old new : Bytes) : Tree :=
  (t.set ((x.backup suffix).location here) (.file old)).set (x.location here) (.file new)

theorem get?_changeAt (t : Tree) (here : Location) (suffix : Bytes) (x : Spot) (old new : Bytes)
    (loc : Location) : (t.changeAt here suffix x old new).get? loc =
      if loc = x.location here then some (.file new)
      else if loc = (x.backup suffix).location here then some (.file old)
      else t.get? loc := by
  unfold changeAt
  rw [get?_set _ (x.location_ne_nil here), get?_set t ((x.backup suffix).location_ne_nil here)]

section ChangeAt

variable (hframe : t.frame (x.location here) = none)
  (hframe' : t.frame ((x.backup suffix).location here) = none) (old new : Bytes)

include hframe hframe'

theorem frame_changeAt : (t.changeAt here suffix x old new).frame = t.frame := by
  have hsame := frame_set_file hframe' old
  have hset : (t.set ((x.backup suffix).location here) (.file old)).frame (x.location here) =
      none := by
    rw [hsame]
    exact hframe
  exact (frame_set_file hset new).trans hsame

theorem WellFormed.changeAt (ht : t.WellFormed)
    (habove : t.get? (here ++ x.above) = some .directory) (hname : Path.IsEntryName x.name)
    (hname' : Path.IsEntryName (x.backup suffix).name) :
    (t.changeAt here suffix x old new).WellFormed := by
  have habove' : t.get? (here ++ (x.backup suffix).above) = some .directory := habove
  have hsame := frame_set_file hframe' old
  apply (ht.set_spot habove' hname' hframe' old).set_spot _ hname _ new
  · exact get?_directory_congr hsame.symm habove
  · rw [hsame]
    exact hframe

end ChangeAt

/-- A change of another file leaves a file as it is. -/
theorem Changed.changeAt (h : Changed t t' root here suffix after y) (hne : y ≠ x)
    (hold : t.get? (x.location here) = some (.file old))
    (hvacant : t.get? ((x.backup suffix).location here) = none) (old' new : Bytes) :
    Changed t (t'.changeAt here suffix x old' new) root here suffix after y := by
  apply h.congr
  · rw [get?_changeAt, if_neg, if_neg (h.location_ne_vacant hvacant)]
    exact fun heq => hne (Spot.location_injective heq)
  · rw [get?_changeAt, if_neg (h.backup_ne_file hold), if_neg]
    exact fun heq => hne (Spot.backup_injective (Spot.location_injective heq))

/-- A change enters its file into the difference. -/
theorem BackedUp.changeAt (hsuffix : IsSuffix suffix) (ht : t.WellFormed)
    (h : BackedUp t t' root here suffix after files) (hready : t.Ready root here suffix x)
    (hfits : x.fault? root = none) (hbackup : (x.backup suffix).fault? root = none)
    (hold : t.get? (x.location here) = some (.file old))
    (hvacant : t.get? ((x.backup suffix).location here) = none) (hx : x ∉ files) :
    BackedUp t (t'.changeAt here suffix x old (after (x.path root))) root here suffix after
      (insert x files) := by
  have hframe : t'.frame (x.location here) = none := h.frame_eq_none_of_file hold
  have hframe' : t'.frame ((x.backup suffix).location here) = none :=
    h.frame_eq_none_of_vacant hvacant
  constructor
  · have hproper := (ht.isProper hold).backup hsuffix.nonempty hsuffix.no_slash
    apply h.wellFormed.changeAt hframe hframe' old _
    · exact get?_directory_congr h.frame (ht.get?_above hold)
    · exact ht.isEntryName _ _ hold x.name (by simp [Spot.location])
    · exact Spot.isEntryName_of_fault? hproper hbackup
  · exact h.frame.trans (frame_changeAt hframe hframe' old _).symm
  · intro y hy
    rcases hy with heq | hy
    · subst heq
      have hne : (y.backup suffix).location here ≠ y.location here := by
        intro heq
        rw [heq, hold] at hvacant
        cases hvacant
      refine ⟨hready, hfits, hbackup, hvacant, old, hold, ?_, ?_⟩
      · rw [get?_changeAt, if_pos rfl]
      · rw [get?_changeAt, if_neg hne, if_pos rfl]
    · have hne : y ≠ x := fun heq => hx (heq ▸ hy)
      exact (h.changed y hy).changeAt hne hold hvacant old _
  · intro loc hloc
    obtain ⟨hne, hne'⟩ := hloc x (Set.mem_insert x files)
    rw [get?_changeAt, if_neg hne, if_neg hne']
    exact h.same loc fun y hy => hloc y (Set.mem_insert_of_mem x hy)

def restoreAt (t : Tree) (here : Location) (suffix : Bytes) (x : Spot) (old : Bytes) : Tree :=
  (t.erase ((x.backup suffix).location here)).set (x.location here) (.file old)

theorem get?_restoreAt (t : Tree) (here : Location) (suffix : Bytes) (x : Spot) (old : Bytes)
    (loc : Location) : (t.restoreAt here suffix x old).get? loc =
      if loc = x.location here then some (.file old)
      else if loc = (x.backup suffix).location here then none
      else t.get? loc := by
  unfold restoreAt
  rw [get?_set _ (x.location_ne_nil here), get?_erase t ((x.backup suffix).location_ne_nil here)]

section RestoreAt

variable (hframe : t.frame (x.location here) = none)
  (hframe' : t.frame ((x.backup suffix).location here) = none) (old : Bytes)

include hframe hframe'

theorem frame_restoreAt : (t.restoreAt here suffix x old).frame = t.frame := by
  have hsame := frame_erase hframe'
  have herase : (t.erase ((x.backup suffix).location here)).frame (x.location here) = none := by
    rw [hsame]
    exact hframe
  exact (frame_set_file herase old).trans hsame

theorem WellFormed.restoreAt (ht : t.WellFormed)
    (habove : t.get? (here ++ x.above) = some .directory) (hname : Path.IsEntryName x.name) :
    (t.restoreAt here suffix x old).WellFormed := by
  have hsame := frame_erase hframe'
  apply (ht.erase hframe').set_spot _ hname _ old
  · exact get?_directory_congr hsame.symm habove
  · rw [hsame]
    exact hframe

end RestoreAt

/-- A move home of another file leaves a file as it is. -/
theorem Changed.restoreAt (h : Changed t t' root here suffix after y) (hne : y ≠ x)
    (hold : t.get? (x.location here) = some (.file old))
    (hvacant : t.get? ((x.backup suffix).location here) = none) (old' : Bytes) :
    Changed t (t'.restoreAt here suffix x old') root here suffix after y := by
  apply h.congr
  · rw [get?_restoreAt, if_neg, if_neg (h.location_ne_vacant hvacant)]
    exact fun heq => hne (Spot.location_injective heq)
  · rw [get?_restoreAt, if_neg (h.backup_ne_file hold), if_neg]
    exact fun heq => hne (Spot.backup_injective (Spot.location_injective heq))

/-- A move home takes its file out of the difference. -/
theorem BackedUp.restoreAt (ht : t.WellFormed) (h : BackedUp t t' root here suffix after files)
    (hx : x ∈ files) (hold : t.get? (x.location here) = some (.file old)) :
    BackedUp t (t'.restoreAt here suffix x old) root here suffix after (files \ {x}) := by
  have hvacant := (h.changed x hx).vacant
  have hframe : t'.frame (x.location here) = none := h.frame_eq_none_of_file hold
  have hframe' : t'.frame ((x.backup suffix).location here) = none :=
    h.frame_eq_none_of_vacant hvacant
  constructor
  · apply h.wellFormed.restoreAt hframe hframe' old
    · exact get?_directory_congr h.frame (ht.get?_above hold)
    · exact ht.isEntryName _ _ hold x.name (by simp [Spot.location])
  · exact h.frame.trans (frame_restoreAt hframe hframe' old).symm
  · intro y hy
    exact (h.changed y hy.1).restoreAt hy.2 hold hvacant old
  · intro loc hloc
    rw [get?_restoreAt]
    by_cases heq : loc = x.location here
    · rw [if_pos heq, heq, hold]
    by_cases heq' : loc = (x.backup suffix).location here
    · rw [if_neg heq, if_pos heq', heq', hvacant]
    rw [if_neg heq, if_neg heq']
    apply h.same
    intro y hy
    by_cases hyx : y = x
    · subst hyx
      exact ⟨heq, heq'⟩
    · exact hloc y ⟨hy, hyx⟩

end Tree

end ExplicitNull
