import Mathlib.Data.List.Forall2
import ExplicitNull.Proofs.Homecoming

/-!
What the outcomes of a restore tell about the two trees before and after it. A backup without an
error has come home with its bytes, and each location that no such backup has left or come to is as
it was. A backup with an error is left in its place, unless the backup of the backup has come there.
-/
namespace ExplicitNull

namespace Tree

variable {t t' : Tree} {root : Path} {here : Location} {suffix : Bytes} {y z : Spot}
  {spots : List Spot} {done : Set Spot} {o o' : RestoreOutcome} {outcomes : List RestoreOutcome}

/-- The end of a restore: the backups of `spots` had their turn, those of the files in `done` have
come home. -/
structure Returned (t t' : Tree) (root : Path) (here : Location) (suffix : Bytes)
    (spots : List Spot) (done : Set Spot) (outcomes : List RestoreOutcome) : Prop where
  resolves : t.resolve .target root = .ok (.found here .directory)
  backups : spots.map (fun y => (y.backup suffix).path root) =
    (t.backups root suffix).filter fun p => Utf8.isValid p.raw
  hasBackup : ∀ y ∈ spots, t.HasBackup root here suffix y
  nodup : spots.Nodup
  home : Home t t' here suffix done
  mem_spots : ∀ y ∈ done, y ∈ spots
  tells : List.Forall₂ (Tells t t' root here suffix done) spots outcomes

theorem kind_of_run_restore
    (h : (restore root suffix : StateM Tree (Except Failure (List RestoreOutcome))).run t =
      (.ok outcomes, t')) : t.kind root = .ok .directory := by
  by_contra hkind
  obtain ⟨f, hrun⟩ := run_validateRoot_of_ne hkind
  unfold restore at h
  rw [run_bind, hrun] at h
  cases congrArg Prod.fst h

theorem WellFormed.exists_returned (ht : t.WellFormed)
    (h : (restore root suffix : StateM Tree (Except Failure (List RestoreOutcome))).run t =
      (.ok outcomes, t')) :
    ∃ here spots done, Returned t t' root here suffix spots done outcomes := by
  have hkind := kind_of_run_restore h
  obtain ⟨here, hroot⟩ := kind_eq_directory.1 hkind
  obtain ⟨spots, hspots, hbackup, horder⟩ := ht.exists_backups_eq_map hroot suffix
  obtain ⟨outcomes', t'', done, hrun, hhome, -, -, hdone, htells⟩ :=
    (Home.start ht).run_moveAll ht hroot hbackup horder fun z hz => hz.elim
  rw [run_restore suffix hkind, hspots, hrun] at h
  cases h
  refine ⟨here, spots.filter (isMoved root suffix), done, hroot, ?_, ?_, ?_, hhome, ?_, htells⟩
  · rw [hspots, List.filter_map]
    rfl
  · exact fun y hy => hbackup y (List.mem_of_mem_filter hy)
  · exact (horder.imp fun hne => hne.1).filter _
  · exact fun y hy => (hdone y hy).resolve_left fun hmem => hmem.elim

section Returned

variable (h : Returned t t' root here suffix spots done outcomes)

include h

theorem Returned.exists_spot (ho : o ∈ outcomes) :
    ∃ y ∈ spots, Tells t t' root here suffix done y o := by
  obtain ⟨i, hi, hget⟩ := List.getElem_of_mem ho
  have hlength := h.tells.length_eq
  refine ⟨spots[i], List.getElem_mem _, ?_⟩
  rw [← hget]
  exact h.tells.get _ hi

theorem Returned.exists_outcome (hy : y ∈ spots) :
    ∃ o ∈ outcomes, Tells t t' root here suffix done y o := by
  obtain ⟨i, hi, hget⟩ := List.getElem_of_mem hy
  have hlength := h.tells.length_eq
  refine ⟨outcomes[i], List.getElem_mem _, ?_⟩
  rw [← hget]
  exact h.tells.get hi _

theorem Returned.root_ne_nil : root.raw ≠ [] := raw_ne_nil_of_resolve h.resolves

/-- What the outcomes show is what the files have. -/
theorem Returned.map_eq {α : Type} {f : Spot → α} {g : RestoreOutcome → α}
    (hsame : ∀ y o, Tells t t' root here suffix done y o → g o = f y) :
    outcomes.map g = spots.map f := by
  have hall : List.Forall₂ (· = ·) (spots.map f) (outcomes.map g) :=
    List.forall₂_map_left_iff.2 (List.forall₂_map_right_iff.2
      (h.tells.imp fun y o htells => (hsame y o htells).symm))
  rw [List.forall₂_eq_eq_eq] at hall
  exact hall.symm

/-- A file that has got its backup back was no directory. -/
theorem Returned.not_directory (hy : y ∈ done) : t.get? (y.location here) ≠ some .directory := by
  obtain ⟨bytes, hget⟩ := (h.hasBackup y (h.mem_spots y hy)).lists.isFile
  intro hdirectory
  have hend := (h.home.losesLinks.directory _).2 hdirectory
  rw [h.home.home y hy, hget] at hend
  cases hend

/-- Where a file is in the later tree. -/
theorem Returned.regular?_eq_some (hy : y.IsProper) (hfits : y.fault? root = none)
    (habove : t.get? (here ++ y.above) = some .directory) {bytes : Bytes} :
    t'.regular? (y.path root) = some bytes ↔
      t'.kind root = .ok .directory ∧ t'.get? (y.location here) = some (.file bytes) :=
  h.home.losesLinks.regular?_eq_some h.home.wellFormed h.resolves hy hfits habove

variable (ht : t.WellFormed)

include ht

/-- Two files with backups are the same if their paths are. -/
theorem Returned.spot_unique (hy : y ∈ spots) (hz : z ∈ spots) (hpath : y.path root = z.path root) :
    y = z :=
  Spot.path_injective h.root_ne_nil ((h.hasBackup y hy).isNamed ht) ((h.hasBackup z hz).isNamed ht)
    hpath

theorem Returned.nodup_homes : (outcomes.map RestoreOutcome.home).Nodup := by
  rw [h.map_eq fun y o htells => htells.home]
  exact List.pairwise_map.2 (h.nodup.imp_of_mem fun hy hz hne hpath =>
    hne (h.spot_unique ht hy hz hpath))

/-- A path with the components of a file that has got its backup back is spelled as this one. -/
theorem Returned.eq_of_compare (hy : y ∈ done) (hz : z ∈ spots)
    (hcompare : (z.path root).compare (y.path root) = .eq) : z = y := by
  have hproper := h.home.proper y hy
  have hnamed := (h.hasBackup z hz).isNamed ht
  have hcomponents : (z.path root).components = (y.path root).components :=
    Path.compare_eq_eq.1 hcompare
  rw [Spot.components_path h.root_ne_nil hnamed, Spot.components_path h.root_ne_nil hproper.isNamed,
    hproper.name.inner?, List.append_assoc, List.append_assoc] at hcomponents
  have hrest := List.append_cancel_left hcomponents
  have hinjective : Function.Injective Path.Component.name := fun a b hab => by cases hab; rfl
  rcases hnamed.isProper_or with hz' | hdots | hdots
  · rw [hz'.name.inner?] at hrest
    obtain ⟨habove, hname⟩ := List.append_inj' hrest rfl
    have habove : z.above = y.above := hinjective.list_map habove
    have hname : z.name = y.name := by simpa using hname
    cases z
    cases y
    simp only at habove hname
    rw [habove, hname]
  · -- A path that ends in a dot has the components of the directory above.
    have hdot : Path.inner? (utf8 ".") = none := by decide
    rw [hdots, hdot] at hrest
    have habove : z.above = y.above ++ [y.name] :=
      hinjective.list_map (by simpa using hrest)
    have hdirectory := (h.hasBackup z hz).get?_above ht
    rw [habove, ← List.append_assoc] at hdirectory
    exact absurd hdirectory (h.not_directory hy)
  · have hparent : Path.inner? (utf8 "..") = some .parent := by decide
    rw [hdots, hparent] at hrest
    have hlast := (List.append_inj' hrest rfl).2
    cases hlast

/-- An outcome without an error shares its home with no other. -/
theorem Returned.unique_home (ho : o ∈ outcomes) (hnone : o.error = none) (ho' : o' ∈ outcomes)
    (hcompare : o'.home.compare o.home = .eq) : o' = o := by
  obtain ⟨y, hy, htells⟩ := h.exists_spot ho
  obtain ⟨z, hz, htells'⟩ := h.exists_spot ho'
  rw [htells.home, htells'.home] at hcompare
  have heq := h.eq_of_compare ht (htells.error.1 hnone) hz hcompare
  subst heq
  have hnone' : o'.error = none := htells'.error.2 (htells.error.1 hnone)
  cases o
  cases o'
  simp only at hnone hnone'
  simp only [RestoreOutcome.mk.injEq, hnone, hnone', and_true]
  exact ⟨htells'.home.trans htells.home.symm, htells'.backup.trans htells.backup.symm⟩

theorem Returned.site?_backup (hy : y ∈ spots) :
    t.site? ((y.backup suffix).path root) = some ((y.backup suffix).location here) :=
  have hbackup := h.hasBackup y hy
  (hbackup.reaches_backup ht h.resolves).site? (hbackup.backup_fits ht h.resolves)

theorem Returned.site?_home (hy : y ∈ done) :
    t.site? (y.path root) = some (y.location here) :=
  have hbackup := h.hasBackup y (h.mem_spots y hy)
  (ht.reaches h.resolves (h.home.proper y hy) (hbackup.get?_above ht)).site?
    (hbackup.fits ht h.resolves)

/-- A backup without an error has come home. -/
theorem Returned.comesHome (ho : o ∈ outcomes) (hnone : o.error = none) :
    ∃ bytes loc, t.regular? o.backup = some bytes ∧ t.site? o.home = some loc ∧
      t'.get? loc = some (.file bytes) ∧
      (t'.regular? o.home = some bytes ↔ t'.kind root = .ok .directory) := by
  obtain ⟨y, hy, htells⟩ := h.exists_spot ho
  have hdone : y ∈ done := htells.error.1 hnone
  have hbackup := h.hasBackup y hy
  obtain ⟨bytes, hregular, hget⟩ := hbackup.regular? ht h.resolves
  have hhome : t'.get? (y.location here) = some (.file bytes) :=
    (h.home.home y hdone).trans hget
  rw [htells.home, htells.backup]
  refine ⟨bytes, y.location here, hregular, h.site?_home ht hdone, hhome, ?_⟩
  rw [h.regular?_eq_some (h.home.proper y hdone) (hbackup.fits ht h.resolves)
    (hbackup.get?_above ht)]
  exact and_iff_left hhome

/-- Where the root is left, a move fails only if there is a directory in its way. -/
theorem Returned.exists_directory (ho : o ∈ outcomes) (herror : o.error ≠ none)
    (hkind : t'.kind root = .ok .directory) :
    ∃ loc, t.resolve .entry o.home = .ok (.found loc .directory) := by
  obtain ⟨y, hy, htells⟩ := h.exists_spot ho
  have hbackup := h.hasBackup y hy
  have hfits := hbackup.fits ht h.resolves
  have habove := hbackup.get?_above ht
  have hnamed := hbackup.isNamed ht
  rw [htells.home]
  rcases hnamed.isProper_or with hproper | hdots
  · have hdirectory := htells.cause herror hkind hproper
    have hresolve := (ht.reaches h.resolves hproper habove).resolve hfits
      (.inl rfl : Purpose.entry = .entry ∨ _)
    rw [hdirectory] at hresolve
    exact ⟨_, hresolve⟩
  · obtain ⟨left, hleads⟩ := exists_leads_root h.resolves
    have hleads := hleads.append (ht.leads left here y.above habove)
    unfold Tree.resolve
    rw [(Spot.fault?_eq_none.1 hfits).1, Spot.steps_path h.root_ne_nil hnamed,
      hleads.resolveFrom_append (.inr ⟨by simp, by simp [hnamed.nonempty]⟩)]
    rcases hdots with hhere | hparent
    · rw [hhere, resolveFrom_stay (.inr rfl), resolveFrom_nil]
      exact ⟨_, rfl⟩
    · rw [hparent, resolveFrom_up, resolveFrom_nil]
      exact ⟨_, rfl⟩

/-- A location that no backup has left or come to is as it was. -/
theorem Returned.get?_eq {loc : Location}
    (hloc : ∀ o ∈ outcomes, o.error = none → t.site? o.backup ≠ some loc ∧ t.site? o.home ≠ some loc) :
    t'.get? loc = t.get? loc := by
  apply h.home.same
  intro y hy
  obtain ⟨o, ho, htells⟩ := h.exists_outcome (h.mem_spots y hy)
  obtain ⟨hbackup, hhome⟩ := hloc o ho (htells.error.2 hy)
  rw [htells.backup, h.site?_backup ht (h.mem_spots y hy)] at hbackup
  rw [htells.home, h.site?_home ht hy] at hhome
  exact ⟨fun heq => hhome (by rw [heq]), fun heq => hbackup (by rw [heq])⟩

/-- Only the backup of a backup comes home to its place. -/
theorem Returned.forall_home_iff (hy : y ∈ spots) {bytes : Bytes} :
    (∀ o ∈ outcomes, o.error = none → o.home = (y.backup suffix).path root →
      t.regular? o.backup = some bytes) ↔
    (y.backup suffix ∈ done →
      t.regular? (((y.backup suffix).backup suffix).path root) = some bytes) := by
  constructor
  · intro hall hdone
    obtain ⟨o, ho, htells⟩ := h.exists_outcome (h.mem_spots _ hdone)
    have hbytes := hall o ho (htells.error.2 hdone) htells.home
    rwa [htells.backup] at hbytes
  · intro hbytes o ho hnone hhome
    obtain ⟨z, hz, htells⟩ := h.exists_spot ho
    rw [htells.home] at hhome
    have hz' : z = y.backup suffix := Spot.path_injective h.root_ne_nil
      ((h.hasBackup z hz).isNamed ht) ((h.hasBackup y hy).isProper_backup ht).isNamed hhome
    rw [htells.backup, hz']
    exact hbytes (hz' ▸ htells.error.1 hnone)

/-- A backup with an error is where it was, if its own backup has not come home over it. -/
theorem Returned.staysBehind (ho : o ∈ outcomes) (herror : o.error ≠ none) :
    ∃ bytes loc, t.regular? o.backup = some bytes ∧ t.site? o.backup = some loc ∧
      (∃ last, t'.get? loc = some (.file last)) ∧
      (t'.get? loc = some (.file bytes) ↔ ∀ o' ∈ outcomes, o'.error = none →
        o'.home = o.backup → t.regular? o'.backup = some bytes) ∧
      (t'.regular? o.backup = some bytes ↔ t'.kind root = .ok .directory ∧
        t'.get? loc = some (.file bytes)) := by
  obtain ⟨y, hy, htells⟩ := h.exists_spot ho
  have hstays : y ∉ done := fun hdone => herror (htells.error.2 hdone)
  have hbackup := h.hasBackup y hy
  obtain ⟨bytes, hregular, hget⟩ := hbackup.regular? ht h.resolves
  have habove := hbackup.get?_above ht
  rw [htells.backup]
  refine ⟨bytes, (y.backup suffix).location here, hregular, h.site?_backup ht hy, ?_, ?_,
    h.regular?_eq_some (hbackup.isProper_backup ht) (hbackup.backup_fits ht h.resolves) habove⟩
  · by_cases hover : y.backup suffix ∈ done
    · obtain ⟨last, hlast⟩ := (h.hasBackup _ (h.mem_spots _ hover)).lists.isFile
      exact ⟨last, (h.home.home _ hover).trans hlast⟩
    · exact ⟨bytes, (h.home.get?_backup hstays hover).trans hget⟩
  · rw [h.forall_home_iff ht hy]
    by_cases hover : y.backup suffix ∈ done
    · have hbackup' := h.hasBackup _ (h.mem_spots _ hover)
      rw [h.home.home _ hover, (hbackup'.reaches_backup ht h.resolves).regular?_eq_some
        (hbackup'.backup_fits ht h.resolves)]
      simp [hover]
    · rw [h.home.get?_backup hstays hover, hget]
      simp [hover]

end Returned

/-- A restore takes the backups home. The tree is compared location by location: where a backup came
home over a link that the root is spelled with, no path below the root leads anywhere any more. -/
structure BringsHome (t t' : Tree) (root : Path) (suffix : Bytes)
    (outcomes : List RestoreOutcome) : Prop where
  /-- Every backup has its outcome, if its path is text. -/
  backups : outcomes.map RestoreOutcome.backup =
    (t.backups root suffix).filter fun p => Utf8.isValid p.raw
  nodup_homes : (outcomes.map RestoreOutcome.home).Nodup
  /-- What a backup came home to is the home of no other, not even in another spelling. -/
  unique_home : ∀ o ∈ outcomes, o.error = none →
    ∀ o' ∈ outcomes, o'.home.compare o.home = .eq → o' = o
  home : ∀ o ∈ outcomes, o.error = none → ∃ bytes loc,
    t.regular? o.backup = some bytes ∧ t.site? o.home = some loc ∧
      t'.get? loc = some (.file bytes) ∧
      (t'.regular? o.home = some bytes ↔ t'.kind root = .ok .directory)
  /-- As long as the root is there, nothing but a directory keeps a backup from its home. -/
  failure : ∀ o ∈ outcomes, o.error ≠ none → t'.kind root = .ok .directory →
    ∃ loc, t.resolve .entry o.home = .ok (.found loc .directory)
  frame : ∀ loc, (∀ o ∈ outcomes, o.error = none →
    t.site? o.backup ≠ some loc ∧ t.site? o.home ≠ some loc) → t'.get? loc = t.get? loc

theorem restore_bringsHome (ht : t.WellFormed)
    (h : (restore root suffix : StateM Tree (Except Failure (List RestoreOutcome))).run t =
      (.ok outcomes, t')) : BringsHome t t' root suffix outcomes := by
  obtain ⟨here, spots, done, hreturned⟩ := ht.exists_returned h
  constructor
  · rw [hreturned.map_eq fun y o htells => htells.backup]
    exact hreturned.backups
  · exact hreturned.nodup_homes ht
  · exact fun o ho hnone o' ho' => hreturned.unique_home ht ho hnone ho'
  · exact fun o ho hnone => hreturned.comesHome ht ho hnone
  · exact fun o ho herror hkind => hreturned.exists_directory ht ho herror hkind
  · exact fun loc hloc => hreturned.get?_eq ht hloc

def chainTree : Tree :=
  ⟨[([utf8 "d"], .directory),
    ([utf8 "d", utf8 "x"], .file (utf8 "0")),
    ([utf8 "d", utf8 "x.bak"], .file (utf8 "1")),
    ([utf8 "d", utf8 "x.bak.bak"], .file (utf8 "2")),
    ([utf8 "d", utf8 "y"], .directory),
    ([utf8 "d", utf8 "y.bak"], .file (utf8 "3"))]⟩

def chainOutcomes : List RestoreOutcome :=
  [⟨⟨utf8 "d/x"⟩, ⟨utf8 "d/x.bak"⟩, none⟩,
    ⟨⟨utf8 "d/x.bak"⟩, ⟨utf8 "d/x.bak.bak"⟩, none⟩,
    ⟨⟨utf8 "d/y"⟩, ⟨utf8 "d/y.bak"⟩, some .isADirectory⟩]

def restoredChain : Tree :=
  ((restore ⟨utf8 "d"⟩ (utf8 ".bak") :
    StateM Tree (Except Failure (List RestoreOutcome))).run chainTree).2

theorem run_restore_chainTree : (restore ⟨utf8 "d"⟩ (utf8 ".bak") :
    StateM Tree (Except Failure (List RestoreOutcome))).run chainTree =
      (.ok chainOutcomes, restoredChain) := rfl

theorem restore_bringsHome_chainTree :
    restoredChain.regular? ⟨utf8 "d/x"⟩ = some (utf8 "1") ∧
      restoredChain.regular? ⟨utf8 "d/x.bak"⟩ = some (utf8 "2") ∧
      BringsHome chainTree restoredChain ⟨utf8 "d"⟩ (utf8 ".bak") chainOutcomes :=
  ⟨by decide +kernel, by decide +kernel, restore_bringsHome (by decide) run_restore_chainTree⟩

def loopTree : Tree :=
  ⟨[([utf8 "d"], .directory),
    ([utf8 "d", utf8 "l"], .link ⟨utf8 "."⟩),
    ([utf8 "d", utf8 "lbak"], .file (utf8 "\x7b\x7d")),
    ([utf8 "d", utf8 "s"], .directory),
    ([utf8 "d", utf8 "s", utf8 ".bak"], .file (utf8 "1")),
    ([utf8 "d", utf8 "sbak"], .file (utf8 "2"))]⟩

/-- A backup can come home over the link that its root is spelled with, and then its path does not
lead to it. Two homes that differ in spelling alone are possible if neither backup can go there. -/
theorem restore_loopTree :
    let run := (restore ⟨utf8 "d/l"⟩ (utf8 "bak") :
      StateM Tree (Except Failure (List RestoreOutcome))).run loopTree
    ∃ outcomes, run.1 = .ok outcomes ∧
      (∃ o ∈ outcomes, o.error = none ∧ loopTree.regular? o.backup = some (utf8 "\x7b\x7d") ∧
        run.2.regular? o.home = none ∧ run.2.read o.home = .error .notADirectory) ∧
      ¬outcomes.Pairwise fun o o' => o.home.compare o'.home ≠ .eq := by
  intro run
  have hrun : run.1 = .ok [
      ⟨⟨utf8 "d/l/l"⟩, ⟨utf8 "d/l/lbak"⟩, none⟩,
      ⟨⟨utf8 "d/l/s/."⟩, ⟨utf8 "d/l/s/.bak"⟩, some .notADirectory⟩,
      ⟨⟨utf8 "d/l/s"⟩, ⟨utf8 "d/l/sbak"⟩, some .notADirectory⟩] := rfl
  exact ⟨_, hrun, by decide +kernel, by decide +kernel⟩

/-- A backup that could not come home is a file at the end, and the one that it was if no other
backup has come home to its path with other bytes; its path leads to it if the root is still there.
-/
theorem restore_keeps_failed (ht : t.WellFormed)
    (h : (restore root suffix : StateM Tree (Except Failure (List RestoreOutcome))).run t =
      (.ok outcomes, t')) (ho : o ∈ outcomes) (herror : o.error ≠ none) :
    ∃ bytes loc, t.regular? o.backup = some bytes ∧ t.site? o.backup = some loc ∧
      (∃ last, t'.get? loc = some (.file last)) ∧
      (t'.get? loc = some (.file bytes) ↔ ∀ o' ∈ outcomes, o'.error = none →
        o'.home = o.backup → t.regular? o'.backup = some bytes) ∧
      (t'.regular? o.backup = some bytes ↔ t'.kind root = .ok .directory ∧
        t'.get? loc = some (.file bytes)) := by
  obtain ⟨here, spots, done, hreturned⟩ := ht.exists_returned h
  exact hreturned.staysBehind ht ho herror

theorem restore_keeps_failed_chainTree :
    restoredChain.regular? ⟨utf8 "d/y.bak"⟩ = some (utf8 "3") := by
  have hbackup : chainTree.regular? ⟨utf8 "d/y.bak"⟩ = some (utf8 "3") := by decide
  have hkind : restoredChain.kind ⟨utf8 "d"⟩ = .ok .directory := by decide +kernel
  have hfailed : ⟨⟨utf8 "d/y"⟩, ⟨utf8 "d/y.bak"⟩, some .isADirectory⟩ ∈ chainOutcomes := by decide
  obtain ⟨bytes, loc, hbytes, -, -, hstays, hregular⟩ :=
    restore_keeps_failed (by decide) run_restore_chainTree hfailed (by decide)
  rw [hbackup] at hbytes
  cases hbytes
  exact hregular.2 ⟨hkind, hstays.2 (by decide)⟩

def blockedTree : Tree :=
  ⟨[([utf8 "x"], .directory),
    ([utf8 "x.bak"], .file (utf8 "1")),
    ([utf8 "x.bak.bak"], .file (utf8 "2"))]⟩

/-- The backup of a backup comes home over it, though this one could not come home itself. -/
theorem restore_blockedTree :
    let run := (restore ⟨utf8 "."⟩ (utf8 ".bak") :
      StateM Tree (Except Failure (List RestoreOutcome))).run blockedTree
    ∃ outcomes, run.1 = .ok outcomes ∧ ∃ o ∈ outcomes, o.error = some .isADirectory ∧
      blockedTree.regular? o.backup = some (utf8 "1") ∧
      run.2.regular? o.backup = some (utf8 "2") := by
  intro run
  have hrun : run.1 = .ok [
      ⟨⟨utf8 "./x"⟩, ⟨utf8 "./x.bak"⟩, some .isADirectory⟩,
      ⟨⟨utf8 "./x.bak"⟩, ⟨utf8 "./x.bak.bak"⟩, none⟩] := rfl
  exact ⟨_, hrun, by decide +kernel⟩

end Tree

end ExplicitNull
