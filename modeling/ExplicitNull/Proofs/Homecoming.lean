import ExplicitNull.Proofs.Moves
import ExplicitNull.Proofs.Orders

/-!
What a restore comes to in any tree, with backups of backups, directories in the way and links that
get lost. The listing of the backups puts each before its own backup, so that a place is always left
before another backup comes to it. Each move that does not fail brings its own file home, and a
backup whose move fails stays, unless its own backup comes home to its place.
-/
namespace ExplicitNull

namespace Tree

variable {t t' t'' : Tree} {root : Path} {here : Location} {suffix : Bytes} {y z : Spot}

/-- A file that has a listed backup. It need not be there, and its name may be dots. -/
structure HasBackup (t : Tree) (root : Path) (here : Location) (suffix : Bytes) (y : Spot) :
    Prop where
  lists : t.Lists Discovery.mayEnter root here (y.backup suffix)
  name_ne_nil : y.name ≠ []

section HasBackup

variable (ht : t.WellFormed)
  (hroot : t.resolve .target root = .ok (.found here .directory))
  (hy : t.HasBackup root here suffix y)

include ht hy in
theorem HasBackup.isProper_backup : (y.backup suffix).IsProper := by
  obtain ⟨bytes, hget⟩ := hy.lists.isFile
  exact ht.isProper hget

include ht hy in
theorem HasBackup.isNamed : y.IsNamed where
  above := (hy.isProper_backup ht).above
  nonempty := hy.name_ne_nil
  no_slash hslash := (hy.isProper_backup ht).name.no_slash (List.mem_append_left suffix hslash)

include ht hy in
theorem HasBackup.get?_above : t.get? (here ++ y.above) = some .directory := by
  obtain ⟨bytes, hget⟩ := hy.lists.isFile
  exact ht.get?_above (x := y.backup suffix) hget

include ht hroot hy

theorem HasBackup.reaches_backup : t.Reaches root here (y.backup suffix) := by
  obtain ⟨bytes, hget⟩ := hy.lists.isFile
  exact ht.reaches_of_get? hroot hget

theorem HasBackup.backup_fits : (y.backup suffix).fault? root = none := by
  obtain ⟨bytes, hget⟩ := hy.lists.isFile
  exact ht.fits hroot hget hy.lists.short

theorem HasBackup.fits : y.fault? root = none := by
  obtain ⟨hpath, hname⟩ := Spot.fault?_eq_none.1 (hy.backup_fits ht hroot)
  obtain ⟨hzero, -, hshort⟩ := Path.fault?_eq_none.1 hpath
  rw [Spot.raw_path_backup] at hzero hshort
  simp only [List.mem_append, not_or, List.length_append] at hzero hshort
  simp only [Spot.backup, List.length_append] at hname
  have hne := Spot.path_ne_nil root (hy.isNamed ht)
  exact Spot.fault?_eq_none.2
    ⟨Path.fault?_eq_none.2 ⟨hzero.1, hne, by omega⟩, by omega⟩

theorem HasBackup.regular? : ∃ bytes, t.regular? ((y.backup suffix).path root) = some bytes ∧
    t.get? ((y.backup suffix).location here) = some (.file bytes) := by
  obtain ⟨bytes, hget⟩ := hy.lists.isFile
  have hfits := hy.backup_fits ht hroot
  exact ⟨bytes, ((hy.reaches_backup ht hroot).regular?_eq_some hfits).2 hget, hget⟩

end HasBackup

/-- A backup belongs to the file that is left without the suffix. -/
theorem WellFormed.mem_backups (ht : t.WellFormed)
    (hroot : t.resolve .target root = .ok (.found here .directory)) {p : Path}
    (hp : p ∈ t.backups root suffix) :
    ∃ y, t.HasBackup root here suffix y ∧ p = (y.backup suffix).path root := by
  rw [mem_backups_iff, ht.mem_reached hroot] at hp
  obtain ⟨⟨x, hlists, hpath⟩, hbackup⟩ := hp
  obtain ⟨bytes, hget⟩ := hlists.isFile
  rw [hpath, Spot.isBackup_path (raw_ne_nil_of_resolve hroot) (ht.isProper hget)] at hbackup
  obtain ⟨-, hlonger, stem, hstem⟩ := hbackup
  have hx : x = (⟨x.above, stem⟩ : Spot).backup suffix := by simp [Spot.backup, hstem]
  refine ⟨⟨x.above, stem⟩, ⟨hx ▸ hlists, ?_⟩, by rw [← hx]; exact hpath⟩
  intro hempty
  simp only at hempty
  rw [← hstem, hempty] at hlonger
  simp at hlonger

theorem pairwise_sortPaths (paths : List Path) :
    (Discovery.sortPaths paths).Pairwise fun p q => (p.compare q).isLE = true := by
  apply Sorting.pairwise_sort
  · intro p q
    have hswap : p.compare q = (q.compare p).swap := Std.OrientedCmp.eq_swap
    rw [hswap]
    cases q.compare p <;> simp
  · intro p q r hpq hqr
    exact Std.TransCmp.isLE_trans hpq hqr

/-- Backups come in an order in which none is followed by the backup that has its place as home. -/
theorem WellFormed.exists_backups_eq_map (ht : t.WellFormed)
    (hroot : t.resolve .target root = .ok (.found here .directory)) (suffix : Bytes) :
    ∃ spots : List Spot, t.backups root suffix = spots.map (fun y => (y.backup suffix).path root) ∧
      (∀ y ∈ spots, t.HasBackup root here suffix y) ∧
      spots.Pairwise fun y z => y ≠ z ∧ y ≠ z.backup suffix := by
  obtain ⟨spots, hspots, hbackup⟩ := exists_eq_map fun p hp => ht.mem_backups hroot hp
  refine ⟨spots, hspots, hbackup, ?_⟩
  have hsorted := pairwise_sortPaths ((t.reached root).filter (Discovery.isBackup suffix))
  have hnodup := ht.nodup_backups hroot suffix
  have hpaths : Discovery.sortPaths ((t.reached root).filter (Discovery.isBackup suffix)) =
      spots.map fun y => (y.backup suffix).path root := hspots
  rw [hpaths, List.pairwise_map] at hsorted
  rw [hspots, List.Nodup, List.pairwise_map] at hnodup
  refine (hsorted.and hnodup).imp_of_mem ?_
  intro y z hy hz ⟨hle, hne⟩
  refine ⟨fun heq => hne (by rw [heq]), fun heq => ?_⟩
  by_cases hsuffix : suffix = []
  · subst hsuffix
    exact hne (by simp [heq, Spot.backup])
  · -- The backup of a backup has a longer name in the same directory.
    subst heq
    have hlt := Spot.compare_backup (raw_ne_nil_of_resolve hroot)
      ((hbackup z hz).isProper_backup ht) ((hbackup _ hy).isProper_backup ht) hsuffix
    have hswap : (((z.backup suffix).backup suffix).path root).compare
        ((z.backup suffix).path root) = (((z.backup suffix).path root).compare
          (((z.backup suffix).backup suffix).path root)).swap := Std.OrientedCmp.eq_swap
    rw [hswap, hlt] at hle
    cases hle

/-- The move of a backup fails only where a directory is in the way, where the home ends in dots and
where the root is lost. -/
theorem HasBackup.rename_cases (ht : t.WellFormed)
    (hroot : t.resolve .target root = .ok (.found here .directory))
    (hy : t.HasBackup root here suffix y) (ht' : t'.WellFormed) (hlost : LosesLinks t t')
    {bytes : Bytes} (hget : t'.get? ((y.backup suffix).location here) = some (.file bytes)) :
    (∃ e, t'.rename ((y.backup suffix).path root) (y.path root) = .error e ∧
      (t'.kind root = .ok .directory → y.IsProper → t.get? (y.location here) = some .directory)) ∨
    ∃ t'', t'.rename ((y.backup suffix).path root) (y.path root) = .ok t'' ∧ y.IsProper ∧
      t''.WellFormed ∧ LosesLinks t' t'' ∧
      Moves t' t'' ((y.backup suffix).location here) (y.location here) bytes := by
  have hnamed := hy.isNamed ht
  have habove := hy.get?_above ht
  by_cases hgone : t'.kind root ≠ .ok .directory ∨ y.name = utf8 "." ∨ y.name = utf8 ".."
  · left
    obtain ⟨e, he⟩ := place_eq_error (raw_ne_nil_of_resolve hroot) (fault?_of_resolve hroot)
      hnamed hgone .busy
    obtain ⟨e', he'⟩ := rename_of_place_error he
    refine ⟨e', he', fun hkind hproper => ?_⟩
    rcases hgone with hlost | hhere | hparent
    · exact absurd hkind hlost
    · exact absurd hhere hproper.name.not_here
    · exact absurd hparent hproper.name.not_parent
  obtain ⟨hkind, hdots⟩ := not_or.1 hgone
  have hkind : t'.kind root = .ok .directory := not_not.1 hkind
  have hproper : y.IsProper := hnamed.isProper_or.resolve_right hdots
  have hx := hlost.reaches ht' hroot hkind (hy.isProper_backup ht) habove
  have hreaches := hlost.reaches ht' hroot hkind hproper habove
  by_cases hdirectory : t'.get? (y.location here) = some .directory
  · left
    rcases hx.rename_cases hreaches (hy.backup_fits ht hroot) (hy.fits ht hroot) hget with
      ⟨-, hrename⟩ | ⟨hnone, -⟩
    · exact ⟨_, hrename, fun _ _ => (hlost.directory _).1 hdirectory⟩
    · exact absurd hdirectory hnone
  · right
    obtain ⟨t'', hrename, ht'', hmoves⟩ := hx.rename_moves ht' hreaches (hy.backup_fits ht hroot)
      (hy.fits ht hroot) hget ((hlost.directory _).2 habove) hdirectory
    exact ⟨t'', hrename, hproper, ht'', hmoves.losesLinks hget hdirectory, hmoves⟩

/-- A tree in which the backups of some files have come home, and all else is as it was. -/
structure Home (t t' : Tree) (here : Location) (suffix : Bytes) (done : Set Spot) : Prop where
  wellFormed : t'.WellFormed
  losesLinks : LosesLinks t t'
  proper : ∀ y ∈ done, y.IsProper
  home : ∀ y ∈ done, t'.get? (y.location here) = t.get? ((y.backup suffix).location here)
  gone : ∀ y ∈ done, y.backup suffix ∉ done → t'.get? ((y.backup suffix).location here) = none
  same : ∀ loc, (∀ y ∈ done, loc ≠ y.location here ∧ loc ≠ (y.backup suffix).location here) →
    t'.get? loc = t.get? loc

variable {done : Set Spot}

theorem Home.start (ht : t.WellFormed) : Home t t here suffix ∅ where
  wellFormed := ht
  losesLinks := .refl t
  proper _ hy := hy.elim
  home _ hy := hy.elim
  gone _ hy := hy.elim
  same _ _ := rfl

/-- A backup stays in its place until it is moved, if none has come home there. -/
theorem Home.get?_backup (h : Home t t' here suffix done) (hy : y ∉ done)
    (hnone : y.backup suffix ∉ done) :
    t'.get? ((y.backup suffix).location here) = t.get? ((y.backup suffix).location here) := by
  apply h.same
  intro z hz
  constructor
  · intro heq
    exact hnone (Spot.location_injective heq ▸ hz)
  · intro heq
    exact hy (Spot.backup_injective (Spot.location_injective heq) ▸ hz)

/-- One more backup comes home. -/
theorem Home.next (h : Home t t' here suffix done) (hy : y ∉ done) (hproper : y.IsProper)
    (hnone : y.backup suffix ∉ done) {bytes : Bytes}
    (hget : t'.get? ((y.backup suffix).location here) = some (.file bytes))
    (ht'' : t''.WellFormed) (hlost : LosesLinks t' t'')
    (hmoves : Moves t' t'' ((y.backup suffix).location here) (y.location here) bytes) :
    Home t t'' here suffix (insert y done) := by
  have hold := h.get?_backup hy hnone
  constructor
  · exact ht''
  · exact h.losesLinks.trans hlost
  · intro z hz
    rcases hz with heq | hz
    · rw [heq]
      exact hproper
    · exact h.proper z hz
  · intro z hz
    rw [hmoves]
    rcases hz with heq | hz
    · rw [if_pos (by rw [heq]), heq, ← hold, hget]
    · rw [if_neg, if_neg]
      · exact h.home z hz
      · intro heq
        exact hnone (Spot.location_injective heq ▸ hz)
      · intro heq
        exact hy (Spot.location_injective heq ▸ hz)
  · intro z hz hzbackup
    rw [hmoves]
    have hne : z.backup suffix ≠ y := fun heq => hzbackup (.inl heq)
    rw [if_neg fun heq => hne (Spot.location_injective heq)]
    rcases hz with heq | hz
    · rw [if_pos (by rw [heq])]
    · rw [if_neg]
      · exact h.gone z hz fun hmem => hzbackup (.inr hmem)
      · intro heq
        exact hy (Spot.backup_injective (Spot.location_injective heq) ▸ hz)
  · intro loc hloc
    obtain ⟨hne, hne'⟩ := hloc y (Set.mem_insert y done)
    rw [hmoves, if_neg hne, if_neg hne']
    exact h.same loc fun z hz => hloc z (Set.mem_insert_of_mem y hz)

structure Tells (t t' : Tree) (root : Path) (here : Location) (suffix : Bytes) (done : Set Spot)
    (y : Spot) (o : RestoreOutcome) : Prop where
  home : o.home = y.path root
  backup : o.backup = (y.backup suffix).path root
  error : o.error = none ↔ y ∈ done
  cause : o.error ≠ none → t'.kind root = .ok .directory → y.IsProper →
    t.get? (y.location here) = some .directory

/-- Whether the path of the backup of a file is text; only such a backup is moved. -/
def isMoved (root : Path) (suffix : Bytes) (y : Spot) : Bool :=
  Utf8.isValid ((y.backup suffix).path root).raw

/-- All moves, in an order in which none follows the move to its place. -/
theorem Home.run_moveAll (ht : t.WellFormed)
    (hroot : t.resolve .target root = .ok (.found here .directory)) {spots : List Spot}
    (hbackup : ∀ y ∈ spots, t.HasBackup root here suffix y)
    (horder : spots.Pairwise fun y z => y ≠ z ∧ y ≠ z.backup suffix)
    (hdone : ∀ z ∈ done, ∀ y ∈ spots, z ≠ y ∧ z ≠ y.backup suffix)
    (h : Home t t' here suffix done) :
    ∃ outcomes t'' done', (Restore.moveAll suffix
        (spots.map fun y => (y.backup suffix).path root) :
          StateM Tree (List RestoreOutcome)).run t' = (outcomes, t'') ∧
      Home t t'' here suffix done' ∧ LosesLinks t' t'' ∧ done ⊆ done' ∧
      (∀ y ∈ done', y ∈ done ∨ y ∈ spots.filter (isMoved root suffix)) ∧
      List.Forall₂ (Tells t t'' root here suffix done') (spots.filter (isMoved root suffix))
        outcomes := by
  induction spots generalizing t' done with
  | nil => exact ⟨[], t', done, rfl, h, .refl t', Set.Subset.rfl, fun _ => .inl, .nil⟩
  | cons y spots ih =>
    obtain ⟨hfirst, horder⟩ := List.pairwise_cons.1 horder
    have hrest : ∀ z ∈ spots, t.HasBackup root here suffix z :=
      fun z hz => hbackup z (List.mem_cons_of_mem y hz)
    have hy := hbackup y (List.mem_cons_self ..)
    have hdone' : ∀ z ∈ done, ∀ y ∈ spots, z ≠ y ∧ z ≠ y.backup suffix :=
      fun z hz y' hy' => hdone z hz y' (List.mem_cons_of_mem y hy')
    have hnew : y ∉ done := fun hmem => (hdone y hmem y (List.mem_cons_self ..)).1 rfl
    have hnone : y.backup suffix ∉ done :=
      fun hmem => (hdone _ hmem y (List.mem_cons_self ..)).2 rfl
    by_cases hmoved : isMoved root suffix y = true
    · have hhome : Restore.homeOf? suffix ((y.backup suffix).path root) = some (y.path root) :=
        Spot.homeOf?_backup root (hy.isNamed ht) hmoved
      obtain ⟨bytes, hget⟩ := hy.lists.isFile
      rw [← h.get?_backup hnew hnone] at hget
      rw [List.filter_cons_of_pos hmoved]
      rcases hy.rename_cases ht hroot h.wellFormed h.losesLinks hget with
        ⟨e, hrename, hcause⟩ | ⟨t₁, hrename, hproper, ht₁, hlost, hmoves⟩
      · obtain ⟨outcomes, t₂, done₂, hrun, hend, hlost, hsub, hall, htells⟩ :=
          ih hrest horder hdone' h
        have hstays : y ∉ done₂ := by
          intro hmem
          rcases hall y hmem with hmem | hmem
          · exact hnew hmem
          · exact (hfirst y (List.mem_of_mem_filter hmem)).1 rfl
        refine ⟨⟨y.path root, (y.backup suffix).path root, some e⟩ :: outcomes, t₂, done₂, ?_,
          hend, hlost, hsub, fun z hz => (hall z hz).imp_right (List.mem_cons_of_mem y), ?_⟩
        · rw [List.map_cons, run_moveAll_cons_of_error _ hhome hrename, hrun]
        · refine .cons ⟨rfl, rfl, by simp [hstays], fun _ hkind => ?_⟩ htells
          exact hcause (hlost.kind_root (fault?_of_resolve hroot) hkind)
      · have h₁ := h.next hnew hproper hnone hget ht₁ hlost hmoves
        have hdone₁ : ∀ z ∈ insert y done, ∀ y ∈ spots, z ≠ y ∧ z ≠ y.backup suffix := by
          intro z hz y' hy'
          rcases hz with heq | hz
          · rw [heq]
            exact hfirst y' hy'
          · exact hdone' z hz y' hy'
        obtain ⟨outcomes, t₂, done₂, hrun, hend, hlost', hsub, hall, htells⟩ :=
          ih hrest horder hdone₁ h₁
        have hcame : y ∈ done₂ := hsub (Set.mem_insert y done)
        refine ⟨⟨y.path root, (y.backup suffix).path root, none⟩ :: outcomes, t₂, done₂, ?_,
          hend, hlost.trans hlost', fun z hz => hsub (Set.mem_insert_of_mem y hz), ?_, ?_⟩
        · rw [List.map_cons, run_moveAll_cons _ hhome hrename, hrun]
        · intro z hz
          rcases hall z hz with (heq | hmem) | hmem
          · exact .inr (List.mem_cons.2 (.inl heq))
          · exact .inl hmem
          · exact .inr (List.mem_cons_of_mem y hmem)
        · exact .cons ⟨rfl, rfl, by simp [hcame], fun hnone => absurd rfl hnone⟩ htells
    · have hhome : Restore.homeOf? suffix ((y.backup suffix).path root) = none := if_neg hmoved
      rw [List.filter_cons_of_neg hmoved, List.map_cons, moveAll_cons_of_none _ hhome]
      exact ih hrest horder hdone' h

end Tree

end ExplicitNull
