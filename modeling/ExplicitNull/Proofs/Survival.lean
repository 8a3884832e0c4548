import ExplicitNull.Proofs.Stages
import ExplicitNull.Proofs.Restoring

/-!
The changes of a scan. Each of them is made to a file of its own, with the text that was read. So a
run changes nothing but these files and their backups, and all backups last if the places are
apart, as they are where no link takes a backup and no changed file has the name of one.
-/
namespace ExplicitNull

namespace Tree

variable {t : Tree} {suffix : Bytes} {c : Change} {file : Location} {bytes : Bytes}

/-- A file below a root is found at its location. -/
theorem Lists.location_of_file {root : Path} {here : Location} {x : Spot} (ht : t.WellFormed)
    (hroot : t.resolve .target root = .ok (.found here .directory))
    (hx : t.Lists Discovery.mayEnter root here x) (h : t.file (x.path root) = .ok (file, bytes)) :
    file = x.location here := by
  obtain ⟨bytes', hget⟩ := hx.isFile
  have hreaches := ht.reaches_of_get? hroot hget
  cases hfault : x.fault? root with
  | some e =>
    rw [hreaches.file_of_fault hfault] at h
    cases h
  | none =>
    rw [hreaches.file hfault hget] at h
    cases h
    rfl

/-- What a scan and the preparing of its plan come to. -/
theorem sound_prepared {root : Path} (ht : t.WellFormed) (hroot : t.kind root = .ok .directory)
    (selection : Selection) (style : Style) :
    t.Sound (t.prepared
      (ScanReport.ofReadings ((t.selected root selection).map t.reading)).plan style).changes := by
  obtain ⟨here, hresolve⟩ := kind_eq_directory.1 hroot
  generalize hreport : ScanReport.ofReadings ((t.selected root selection).map t.reading) = report
  have hlists : ∀ c ∈ (t.prepared report.plan style).changes,
      ∃ x, t.Lists Discovery.mayEnter root here x ∧ c.path = x.path root := by
    intro c hc
    rw [← hreport] at hc
    exact (ht.mem_reached hresolve).1 (mem_selected.1 (mem_selected_of_prepared hc)).1
  have hnodup : ((t.prepared report.plan style).changes.map Change.path).Nodup :=
    (Plan.nodup_paths_ofIssues report.issues).sublist (t.sublist_prepared report.plan style)
  have hfile : ∀ c ∈ (t.prepared report.plan style).changes,
      ∃ file, t.file c.path = .ok (file, c.before) :=
    fun c hc => exists_file_of_read (read_of_mem_prepared hc)
  have hchanged : ∀ c ∈ (t.prepared report.plan style).changes, c.after ≠ c.before := by
    intro c hc
    obtain ⟨plan, -, -, hne⟩ := Prepared.exists_reading_of_mem hc
    exact hne
  refine ⟨hfile, hchanged, ?_⟩
  refine (List.pairwise_map.1 hnodup).imp_of_mem fun {c d} hc hd hne file hwritable hwritable' => ?_
  obtain ⟨x, hx, hpath⟩ := hlists c hc
  obtain ⟨y, hy, hpath'⟩ := hlists d hd
  have hfound : ∀ {c x}, c ∈ (t.prepared report.plan style).changes →
      t.Lists Discovery.mayEnter root here x → c.path = x.path root →
      t.writable c.path = .ok file → file = x.location here := by
    intro c x hc hx hpath hwritable
    obtain ⟨loc, hloc⟩ := hfile c hc
    have hplace := (file_eq_ok.1 hloc).1
    rw [hwritable] at hplace
    cases hplace
    rw [hpath] at hloc
    exact hx.location_of_file ht hresolve hloc
  have hsame : x = y := Spot.location_injective
    ((hfound hc hx hpath hwritable).symm.trans (hfound hd hy hpath' hwritable'))
  exact hne (by rw [hpath, hpath', hsame])

/-- Where no link takes a backup and no changed file has the path of another one's backup, the
places are apart. -/
theorem apart_of_clear {root : Path} {changes : List Change} (ht : t.WellFormed)
    (hroot : t.kind root = .ok .directory) (hsuffix : IsSuffix suffix)
    (hreached : ∀ c ∈ changes, c.path ∈ t.reached root)
    (hlink : ∀ c ∈ changes, ¬t.isLink (Change.backupPath c.path suffix) = true)
    (hclear : ∀ c ∈ changes, ∀ d ∈ changes, d.path ≠ Change.backupPath c.path suffix) :
    t.Apart suffix changes := by
  obtain ⟨here, hresolve⟩ := kind_eq_directory.1 hroot
  have hplace : ∀ {c file backup}, c ∈ changes → t.Placed suffix c file backup →
      ∃ x : Spot, c.path = x.path root ∧ file = x.location here ∧
        backup = (x.backup suffix).location here := by
    intro c file backup hc hplaced
    obtain ⟨x, hx, hpath⟩ := (ht.mem_reached hresolve).1 (hreached c hc)
    obtain ⟨bytes, hget⟩ := hx.isFile
    have hbackup := (ht.reaches_of_get? hresolve hget).backup hsuffix.nonempty hsuffix.no_slash
    have hfile := hplaced.file
    have hwritable := hplaced.backup
    have hnone := hlink c hc
    rw [hpath] at hfile hwritable hnone
    rw [Spot.path_backup] at hwritable hnone
    refine ⟨x, hpath, hx.location_of_file ht hresolve hfile, ?_⟩
    exact ((hbackup.writable_eq_ok fun hfits => hbackup.ne_link hfits hnone).1 hwritable).2.2
  have hne : ∀ {c d file backup file' backup'}, c ∈ changes → d ∈ changes →
      t.Placed suffix c file backup → t.Placed suffix d file' backup' → backup ≠ file' := by
    intro c d file backup file' backup' hc hd hc' hd' heq
    obtain ⟨x, hx, -, hxbackup⟩ := hplace hc hc'
    obtain ⟨y, hy, hyfile, -⟩ := hplace hd hd'
    have hspot : x.backup suffix = y :=
      Spot.location_injective (hxbackup.symm.trans (heq.trans hyfile))
    exact hclear c hc d hd (by rw [hx, hy, Spot.path_backup, hspot])
  constructor
  · exact fun c hc file backup hplaced => hne hc hc hplaced hplaced
  · refine List.pairwise_of_forall_mem_list fun c hc d hd file backup file' backup' hc' hd' => ?_
    refine ⟨hne hc hd hc' hd', fun heq => ?_, fun heq => absurd heq (hne hd hc hd' hc')⟩
    obtain ⟨x, -, hxfile, hxbackup⟩ := hplace hc hc'
    obtain ⟨y, -, hyfile, hybackup⟩ := hplace hd hd'
    have hspot : y = x := Spot.backup_injective
      (Spot.location_injective (hybackup.symm.trans (heq.trans hxbackup)))
    have hget := (file_eq_ok.1 hd'.file).2
    rw [hyfile, hspot, ← hxfile, (file_eq_ok.1 hc'.file).2] at hget
    simpa using hget.symm

end Tree

def applyChanges {m : Type → Type} [Monad m] [FileSystem m] (root : Path) (selection : Selection) :
    m (Except Failure (List Change × List ApplyOutcome)) := do
  match ← scan root selection with
  | .error f => return .error f
  | .ok report =>
    let prepared ← prepare report.plan selection.style
    let outcomes ← applyAll selection.suffix prepared.changes
    return .ok (prepared.changes, outcomes)

variable {t t' : Tree} {root : Path} {selection : Selection} {changes : List Change}
  {outcomes : List ApplyOutcome}

theorem run_applyChanges (selection : Selection) (h : t.kind root = .ok .directory) :
    (applyChanges root selection :
        StateM Tree (Except Failure (List Change × List ApplyOutcome))).run t =
      let changes := (t.prepared (ScanReport.ofReadings
        ((t.selected root selection).map t.reading)).plan selection.style).changes
      let (outcomes, t') :=
        (applyAll selection.suffix changes : StateM Tree (List ApplyOutcome)).run t
      (.ok (changes, outcomes), t') := by
  unfold applyChanges
  rw [Tree.run_bind, Tree.run_scan selection h]
  dsimp only
  rw [Tree.run_bind, Tree.run_prepare]
  rfl

theorem kind_of_run_applyChanges
    (h : (applyChanges root selection : StateM Tree
      (Except Failure (List Change × List ApplyOutcome))).run t = (.ok (changes, outcomes), t')) :
    t.kind root = .ok .directory := by
  by_contra hkind
  obtain ⟨f, hrun⟩ := Tree.run_validateRoot_of_ne hkind
  unfold applyChanges scan at h
  rw [Tree.run_bind, Tree.run_bind, hrun] at h
  cases congrArg Prod.fst h

/-- A run changes no location but those of the files that it changes and of their backups. In the
end each backup has what its file had, and each of these files has its new text, if the places of
the changes are apart; and they have to be, for this to be so at all stages of the run. -/
theorem applyChanges_safe_iff (ht : t.WellFormed)
    (h : (applyChanges root selection : StateM Tree
      (Except Failure (List Change × List ApplyOutcome))).run t = (.ok (changes, outcomes), t')) :
    (∀ loc, (∀ c backup, (c, ApplyOutcome.applied backup) ∈ changes.zip outcomes →
        t.writable c.path ≠ .ok loc ∧ t.writable backup ≠ .ok loc) → t'.get? loc = t.get? loc) ∧
      (t.Apart selection.suffix changes →
        ∀ c backup, (c, ApplyOutcome.applied backup) ∈ changes.zip outcomes →
          t'.read backup = t.read c.path ∧ t'.read c.path = .ok c.after) ∧
      ((∀ done, done <+: changes → t.Safe selection.suffix done) ↔
        t.Apart selection.suffix changes) := by
  have hkind := kind_of_run_applyChanges h
  have hsound := Tree.sound_prepared ht hkind selection selection.style
  rw [run_applyChanges selection hkind] at h
  generalize (t.prepared (ScanReport.ofReadings
    ((t.selected root selection).map t.reading)).plan selection.style).changes = prepared
    at h hsound
  obtain ⟨s, outcomes', hstage, hiff⟩ := hsound.exists_stage selection.suffix
  simp only [hstage.run] at h
  cases h
  refine ⟨fun loc hloc => hstage.same loc fun c hc file backup hplaced => ?_, fun hapart => ?_,
    hiff⟩
  · obtain ⟨hfile, hbackup⟩ := hloc c _ ((hstage.applied c _).2 ⟨hc, rfl, file, backup, hplaced⟩)
    refine ⟨fun heq => hfile ?_, fun heq => hbackup ?_⟩
    · rw [heq]
      exact (Tree.file_eq_ok.1 hplaced.file).1
    · rw [heq]
      exact hplaced.backup
  · have hsafe := hiff.2 hapart _ List.prefix_rfl
    unfold Tree.Safe at hsafe
    rw [hstage.run] at hsafe
    exact hsafe

def appliedSample : Tree :=
  let fixed := utf8 "<?php function f(?Foo $a = null) \x7b\x7d"
  (sampleTree.set [utf8 "src", utf8 "a.php.bak"] (.file (sampleChange "a.php").before)).set
    [utf8 "src", utf8 "a.php"] (.file fixed)

theorem run_applyChanges_sampleTree : (applyChanges ⟨utf8 "src"⟩ sampleSelection :
    StateM Tree (Except Failure (List Change × List ApplyOutcome))).run sampleTree =
      (.ok ([sampleChange "a.php", sampleChange "b.php"],
        [.applied ⟨utf8 "src/a.php.bak"⟩,
          .backupFailed ⟨utf8 "src/b.php"⟩ .isADirectory]), appliedSample) :=
  eq_of_toOption (by decide +kernel)

theorem applyChanges_safe_sampleTree :
    appliedSample.read ⟨utf8 "src/a.php.bak"⟩ = sampleTree.read ⟨utf8 "src/a.php"⟩ ∧
      appliedSample.read ⟨utf8 "src/a.php"⟩ = .ok (sampleChange "a.php").after := by
  obtain ⟨-, hsafe, -⟩ := applyChanges_safe_iff (by decide) run_applyChanges_sampleTree
  have hapart : sampleTree.Apart sampleSelection.suffix
      [sampleChange "a.php", sampleChange "b.php"] :=
    Tree.apart_of_clear (by decide) (by decide : sampleTree.kind ⟨utf8 "src"⟩ = .ok .directory)
      ⟨by decide, by decide⟩ (by decide) (by decide) (by decide)
  exact hsafe hapart (sampleChange "a.php") _ (by decide)

def doubledTree : Tree :=
  ⟨[([utf8 "a.php"], .file (utf8 "<?php fn(Foo $a = null) => 1;")),
    ([utf8 "a.php.php"], .file (utf8 "<?php fn(Bar $b = null) => 2;"))]⟩

def doubledSelection : Selection where
  extensions := [utf8 "php"]
  segments := []
  globs := []
  suffix := utf8 ".php"
  style := .mark

/-- With a suffix that makes a backup look like a source, the second file is written as the backup
of the first before it has a backup of its own. Its old text is nowhere in the end. -/
theorem applyChanges_doubledTree :
    ({ suffix := some (utf8 ".php") } : Settings).resolve = .ok doubledSelection ∧
    ∃ changes outcomes s, (applyChanges ⟨utf8 "."⟩ doubledSelection :
        StateM Tree (Except Failure (List Change × List ApplyOutcome))).run doubledTree =
          (.ok (changes, outcomes), s) ∧
      ∃ c backup, (c, ApplyOutcome.applied backup) ∈ changes.zip outcomes ∧
        doubledTree.read c.path = .ok c.before ∧ s.read backup ≠ .ok c.before ∧
          ∀ entry ∈ s.entries, entry.2 ≠ .file c.before := by
  have hrun : (applyChanges ⟨utf8 "."⟩ doubledSelection :
      StateM Tree (Except Failure (List Change × List ApplyOutcome))).run doubledTree =
        (.ok ([
          ⟨⟨utf8 "./a.php"⟩, utf8 "<?php fn(Foo $a = null) => 1;",
            utf8 "<?php fn(?Foo $a = null) => 1;"⟩,
          ⟨⟨utf8 "./a.php.php"⟩, utf8 "<?php fn(Bar $b = null) => 2;",
            utf8 "<?php fn(?Bar $b = null) => 2;"⟩],
          [.applied ⟨utf8 "./a.php.php"⟩, .applied ⟨utf8 "./a.php.php.php"⟩]),
        ⟨[([utf8 "a.php"], .file (utf8 "<?php fn(?Foo $a = null) => 1;")),
          ([utf8 "a.php.php"], .file (utf8 "<?php fn(?Bar $b = null) => 2;")),
          ([utf8 "a.php.php.php"], .file (utf8 "<?php fn(Foo $a = null) => 1;"))]⟩) :=
    eq_of_toOption (by decide +kernel)
  exact ⟨rfl, _, _, _, hrun, _, _, List.mem_cons_of_mem _ (List.mem_cons_self ..), by decide,
    by decide, by decide⟩

end ExplicitNull
