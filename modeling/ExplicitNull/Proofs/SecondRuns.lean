import ExplicitNull.Proofs.Aftermath
import ExplicitNull.Proofs.FixedCharacters
import ExplicitNull.Proofs.ScanPlans
import ExplicitNull.Proofs.Survival

/-!
A second run on the tree that the first has left. What it can find is in the changed files, and in
those backups that the selection asks for, which hold old texts. So it finds nothing, and then
changes nothing, if each text is settled by one fix and no backup but that of a changed file's name
is ever selected.
-/
namespace ExplicitNull

theorem Settings.isSuffix_of_resolve {settings : Settings} {selection : Selection}
    (h : settings.resolve = .ok selection) : Tree.IsSuffix selection.suffix := by
  unfold resolve validate at h
  cases hcheck : checkSuffix settings.suffix with
  | error e => simp [hcheck] at h
  | ok u =>
    have hsuffix : selection.suffix = settings.suffix.getD defaultSuffix := by
      rw [hcheck] at h
      split at h
      · cases h
      · cases hglobs : compileGlobs (settings.excludes.filter isGlob) with
        | error e => simp [hglobs, Except.map] at h
        | ok globs =>
          rw [hglobs] at h
          cases h
          rfl
    rw [hsuffix]
    cases hgiven : settings.suffix with
    | none => exact ⟨by decide, by decide⟩
    | some suffix =>
      simp only [checkSuffix, hgiven] at hcheck
      split at hcheck
      · cases hcheck
      · next hnonempty =>
        split at hcheck
        · cases hcheck
        · next hslash =>
          simp only [Bool.or_eq_true, List.contains_iff_mem, not_or] at hslash
          exact ⟨by simpa using hnonempty, hslash.1⟩

namespace Tree

variable {t t' : Tree} {root : Path} {here : Location} {selection : Selection} {x : Spot}
  {bytes src : Bytes} {edits : List Edit}

/-- Reading a file below a root comes to its bytes if its path can be used and they are text. -/
theorem Reaches.readText_eq_ok (h : t.Reaches root here x)
    (hget : t.get? (x.location here) = some (.file bytes)) :
    t.readText (x.path root) = .ok src ↔
      x.fault? root = none ∧ bytes = src ∧ Utf8.isValid src = true := by
  unfold readText read
  cases hfault : x.fault? root with
  | some e => simp [h.file_of_fault hfault, Except.map]
  | none =>
    simp only [h.file hfault hget, Except.map, true_and]
    split
    · next hvalid =>
      rw [Except.ok.injEq]
      exact ⟨fun heq => ⟨heq, heq ▸ hvalid⟩, And.left⟩
    · next hvalid =>
      simp only [reduceCtorEq, false_iff, not_and]
      rintro rfl
      exact hvalid

/-- A file below a root that is selected and can be read as text. -/
structure Offers (t : Tree) (root : Path) (here : Location) (selection : Selection) (x : Spot)
    (src : Bytes) : Prop where
  lists : t.Lists Discovery.mayEnter root here x
  included : selection.shouldInclude (x.path root) = true
  fits : x.fault? root = none
  text : t.get? (x.location here) = some (.file src)
  valid : Utf8.isValid src = true

section WellFormed

variable (ht : t.WellFormed) (hroot : t.resolve .target root = .ok (.found here .directory))

include ht hroot

theorem WellFormed.offers_iff : t.Offers root here selection x src ↔
    t.Lists Discovery.mayEnter root here x ∧ x.path root ∈ t.selected root selection ∧
      t.readText (x.path root) = .ok src := by
  constructor
  · intro h
    refine ⟨h.lists, mem_selected.2 ⟨(ht.mem_reached hroot).2 ⟨x, h.lists, rfl⟩, h.included⟩, ?_⟩
    exact ((ht.reaches_of_get? hroot h.text).readText_eq_ok h.text).2 ⟨h.fits, rfl, h.valid⟩
  · rintro ⟨hlists, hselected, hread⟩
    obtain ⟨bytes, hget⟩ := hlists.isFile
    obtain ⟨hfits, rfl, hvalid⟩ := ((ht.reaches_of_get? hroot hget).readText_eq_ok hget).1 hread
    exact ⟨hlists, (mem_selected.1 hselected).2, hfits, hget, hvalid⟩

theorem WellFormed.exists_offers {p : Path} (hp : p ∈ t.selected root selection)
    (hread : t.readText p = .ok src) : ∃ x, p = x.path root ∧ t.Offers root here selection x src := by
  obtain ⟨x, hx, -, rfl⟩ := ht.exists_spot_of_selected hroot hp
  exact ⟨x, rfl, (ht.offers_iff hroot).2 ⟨hx, hp, hread⟩⟩

/-- A scan reports what it finds in the texts that are offered. -/
theorem WellFormed.issues_eq_nil_iff :
    (ScanReport.ofReadings ((t.selected root selection).map t.reading)).issues = [] ↔
      ∀ x src, t.Offers root here selection x src → scanSource (x.path root) src = [] := by
  rw [ScanReport.issues_eq_nil_iff]
  constructor
  · intro h x src hoffers
    obtain ⟨-, hselected, hread⟩ := (ht.offers_iff hroot).1 hoffers
    exact h _ src (List.mem_map.2 ⟨x.path root, hselected, by rw [reading, hread]⟩)
  · intro h p src hmem
    obtain ⟨q, hq, heq⟩ := List.mem_map.1 hmem
    obtain ⟨rfl, hread⟩ := Prod.mk.inj heq
    obtain ⟨x, rfl, hoffers⟩ := ht.exists_offers hroot hq hread
    exact h x src hoffers

/-- The edits that a scan comes to: each is made to a text that is offered, and each such text that
fixing changes has one. -/
structure ScanEdits (t : Tree) (root : Path) (here : Location) (selection : Selection)
    (edits : List Edit) : Prop where
  offered : ∀ e ∈ edits, t.Offers root here selection e.spot e.before
  fixed : ∀ e ∈ edits, e.after = fixAll (e.spot.path root) e.before selection.style
  changed : ∀ e ∈ edits, e.after ≠ e.before
  complete : ∀ x src, t.Offers root here selection x src →
    fixAll (x.path root) src selection.style ≠ src → ∃ e ∈ edits, e.spot = x

theorem WellFormed.exists_scanEdits (selection : Selection) : ∃ edits : List Edit,
    (t.prepared (ScanReport.ofReadings ((t.selected root selection).map t.reading)).plan
      selection.style).changes = edits.map (Edit.change root) ∧
    t.ScanEdits root here selection edits := by
  have hchanges : ∀ c ∈ (t.prepared (ScanReport.ofReadings
      ((t.selected root selection).map t.reading)).plan selection.style).changes,
      ∃ e : Edit, (t.Offers root here selection e.spot e.before ∧
        e.after = fixAll (e.spot.path root) e.before selection.style ∧ e.after ≠ e.before) ∧
          c = e.change root := by
    intro c hc
    obtain ⟨hselected, hread, hafter, hne⟩ := (ht.mem_changes_iff hroot).1 hc
    obtain ⟨x, hpath, hoffers⟩ := ht.exists_offers hroot hselected hread
    rw [hpath] at hafter
    exact ⟨⟨x, c.before, c.after⟩, ⟨hoffers, hafter, hne⟩, by rw [Edit.change, ← hpath]⟩
  obtain ⟨edits, hmap, hedits⟩ := exists_eq_map hchanges
  refine ⟨edits, hmap, fun e he => (hedits e he).1, fun e he => (hedits e he).2.1,
    fun e he => (hedits e he).2.2, fun x src hoffers hne => ?_⟩
  obtain ⟨-, hselected, hread⟩ := (ht.offers_iff hroot).1 hoffers
  have hc := (ht.mem_changes_iff hroot (c := ⟨x.path root, src, _⟩)).2
    ⟨hselected, hread, rfl, hne⟩
  rw [hmap] at hc
  obtain ⟨e, he, hchange⟩ := List.mem_map.1 hc
  refine ⟨e, he, Spot.path_injective (raw_ne_nil_of_resolve hroot)
    (ht.isProper (hedits e he).1.text).isNamed (ht.isProper hoffers.text).isNamed ?_⟩
  exact congrArg Change.path hchange

/-- The edits of a scan come in an order in which no file has the place of a later backup. -/
theorem ScanEdits.pairwise {suffix : Bytes} (hsuffix : IsSuffix suffix)
    (h : t.ScanEdits root here selection edits)
    (hmap : (t.prepared (ScanReport.ofReadings ((t.selected root selection).map t.reading)).plan
      selection.style).changes = edits.map (Edit.change root)) :
    edits.Pairwise fun d e => d.spot ≠ e.spot ∧ d.spot ≠ e.spot.backup suffix := by
  have hascending := List.Pairwise.sublist (t.sublist_prepared
    (ScanReport.ofReadings ((t.selected root selection).map t.reading)).plan selection.style)
    (Plan.ascending_ofIssues _)
  rw [hmap, List.map_map, List.pairwise_map] at hascending
  refine hascending.imp_of_mem fun {d e} hd he hlt => ⟨fun heq => ?_, fun heq => ?_⟩
  · have hself : (e.spot.path root).compare (e.spot.path root) = .eq := Std.ReflCmp.compare_self
    simp only [Function.comp_apply, Edit.change, heq, hself] at hlt
    cases hlt
  · have hproper := ht.isProper (h.offered e he).text
    have hbefore := Spot.compare_backup (raw_ne_nil_of_resolve hroot) hproper
      (hproper.backup hsuffix.nonempty hsuffix.no_slash) hsuffix.nonempty
    simp only [Function.comp_apply, Edit.change, heq] at hlt
    rw [Std.OrientedCmp.gt_of_lt hbefore] at hlt
    cases hlt

/-- A run in which every change was made has left the aftermath of the edits of its scan. -/
theorem WellFormed.exists_aftermath (hsuffix : IsSuffix selection.suffix)
    (hlink : ∀ p ∈ t.selected root selection,
      ¬t.isLink (Change.backupPath p selection.suffix) = true)
    {changes : List Change} {outcomes : List ApplyOutcome}
    (hrun : (applyChanges root selection : StateM Tree
      (Except Failure (List Change × List ApplyOutcome))).run t = (.ok (changes, outcomes), t'))
    (happlied : ∀ o ∈ outcomes, ∃ backup, o = .applied backup) :
    ∃ edits, changes = edits.map (Edit.change root) ∧ t.ScanEdits root here selection edits ∧
      Aftermath t t' root here selection.suffix edits := by
  obtain ⟨edits, hmap, hedits⟩ := ht.exists_scanEdits hroot selection
  rw [run_applyChanges selection (kind_eq_directory.2 ⟨here, hroot⟩)] at hrun
  have horder := hedits.pairwise ht hroot hsuffix hmap
  rw [hmap] at hrun
  dsimp only at hrun
  generalize happly : (applyAll selection.suffix (edits.map (Edit.change root)) :
    StateM Tree (List ApplyOutcome)).run t = result at hrun
  obtain ⟨outcomes', t₁⟩ := result
  cases hrun
  refine ⟨edits, rfl, hedits, ?_⟩
  refine (Aftermath.start ht).run_applyAll hsuffix ht hroot (fun e he => ⟨?_, ?_⟩) horder happly
    happlied
  · exact (hedits.offered e he).text
  · obtain ⟨-, hselected, -⟩ := (ht.offers_iff hroot).1 (hedits.offered e he)
    rw [← Spot.path_backup]
    exact hlink _ hselected

end WellFormed

section Aftermath

variable {suffix : Bytes} (hedits : t.ScanEdits root here selection edits)
  (h : Aftermath t t' root here suffix edits)

include hedits h

/-- Each text offered is fixed in the end, if no backup takes the place of another selected file. -/
theorem ScanEdits.get?_offered (hclear : ∀ e ∈ edits,
      selection.shouldInclude ((e.spot.backup suffix).path root) = true →
        ∃ d ∈ edits, d.spot = e.spot.backup suffix)
    (hx : t.Offers root here selection x src) : t'.get? (x.location here) =
      some (.file (fixAll (x.path root) src selection.style)) := by
  by_cases hfile : ∃ e ∈ edits, e.spot = x
  · obtain ⟨e, he, rfl⟩ := hfile
    have hbefore := (hedits.offered e he).text.symm.trans hx.text
    obtain rfl : e.before = src := Entry.file.inj (Option.some.inj hbefore)
    rw [h.file e he, hedits.fixed e he]
  · have hsame : fixAll (x.path root) src selection.style = src := by
      by_contra hne
      exact hfile (hedits.complete x src hx hne)
    rw [h.get?_of_ne fun e he => ⟨fun heq => hfile ⟨e, he, heq.symm⟩, fun heq => ?_⟩, hx.text, hsame]
    exact hfile (heq ▸ hclear e he (heq ▸ hx.included))

/-- The next scan reports nothing if and only if each text is settled by one fix and no backup is
selected but in the place of a changed file. -/
theorem ScanEdits.issues_eq_nil_iff
    (hroot : t.resolve .target root = .ok (.found here .directory)) :
    (ScanReport.ofReadings ((t'.selected root selection).map t'.reading)).issues = [] ↔
      (∀ e ∈ edits, selection.shouldInclude ((e.spot.backup suffix).path root) = true →
        ∃ d ∈ edits, d.spot = e.spot.backup suffix) ∧
      ∀ x src, t.Offers root here selection x src →
        scanSource (x.path root) (fixAll (x.path root) src selection.style) = [] := by
  rw [h.wellFormed.issues_eq_nil_iff (resolve_root_congr h.frame hroot)]
  constructor
  · intro hnone
    have hclear : ∀ e ∈ edits,
        selection.shouldInclude ((e.spot.backup suffix).path root) = true →
          ∃ d ∈ edits, d.spot = e.spot.backup suffix := by
      intro e he hincluded
      by_contra hstray
      obtain ⟨d, hd, hget⟩ := h.backup e he fun d hd heq => hstray ⟨d, hd, heq⟩
      have hold := hnone _ _ ⟨h.lists_backup he (hedits.offered e he).lists, hincluded,
        h.fits e he, hget, (hedits.offered d hd).valid⟩
      -- The text of the backup has issues, for fixing them has changed it.
      refine hedits.changed d hd ?_
      rw [hedits.fixed d hd]
      exact fixSource_of_no_candidates (scanSource_eq_nil_iff.1 hold) _ _
    refine ⟨hclear, fun x src hx => ?_⟩
    exact hnone x _ ⟨h.lists hx.lists, hx.included, hx.fits, hedits.get?_offered h hclear hx,
      isValid_fixSource hx.valid _ _⟩
  · rintro ⟨hclear, hsettled⟩ x src hx
    have hbefore : ∃ src₀, t.Offers root here selection x src₀ := by
      rcases h.get?_cases hx.text with ⟨e, he, rfl, -⟩ | ⟨hne, e, he, rfl⟩ | ⟨-, hget⟩
      · exact ⟨e.before, hedits.offered e he⟩
      · obtain ⟨d, hd, heq⟩ := hclear e he hx.included
        exact absurd heq (hne d hd)
      · exact ⟨src, ⟨hx.lists.enter, hx.lists.short, src, hget⟩, hx.included, hx.fits, hget,
          hx.valid⟩
    obtain ⟨src₀, hx₀⟩ := hbefore
    have htext := hx.text.symm.trans (hedits.get?_offered h hclear hx₀)
    obtain rfl : src = fixAll (x.path root) src₀ selection.style :=
      Entry.file.inj (Option.some.inj htext)
    exact hsettled x src₀ hx₀

end Aftermath

/-- No backup is selected but in the place of a changed file: for edits and for their changes. -/
theorem ScanEdits.clear_iff (ht : t.WellFormed)
    (hroot : t.resolve .target root = .ok (.found here .directory)) {suffix : Bytes}
    (hsuffix : IsSuffix suffix) (hedits : t.ScanEdits root here selection edits) :
    (∀ e ∈ edits, selection.shouldInclude ((e.spot.backup suffix).path root) = true →
        ∃ d ∈ edits, d.spot = e.spot.backup suffix) ↔
      ∀ c ∈ edits.map (Edit.change root),
        selection.shouldInclude (Change.backupPath c.path suffix) = true →
          Change.backupPath c.path suffix ∈ (edits.map (Edit.change root)).map Change.path := by
  have hproper : ∀ e ∈ edits, e.spot.IsProper := fun e he => ht.isProper (hedits.offered e he).text
  have hspot : ∀ e ∈ edits, ∀ d ∈ edits,
      d.spot.path root = (e.spot.backup suffix).path root ↔ d.spot = e.spot.backup suffix :=
    fun e he d hd => ⟨Spot.path_injective (raw_ne_nil_of_resolve hroot) (hproper d hd).isNamed
      ((hproper e he).backup hsuffix.nonempty hsuffix.no_slash).isNamed, congrArg _⟩
  rw [List.forall_mem_map, List.map_map]
  simp only [List.mem_map, Function.comp_apply, Edit.change, Spot.path_backup]
  refine forall₂_congr fun e he => imp_congr_right fun _ => exists_congr fun d => ?_
  exact and_congr_right fun hd => (hspot e he d hd).symm

end Tree

variable {t t' : Tree} {root : Path} {selection : Selection} {changes : List Change}
  {outcomes : List ApplyOutcome}

/-- What a scan reports of plainly typed texts once each is fixed. -/
theorem Tree.WellFormed.settled_iff (ht : t.WellFormed) {here : Location}
    (hroot : t.resolve .target root = .ok (.found here .directory))
    (hplain : ∀ p ∈ t.selected root selection, ∀ src, t.readText p = .ok src →
      PlainlyTyped (tokenize src) ∧
        ∀ c ∈ candidates (tokenize src), c.namesNull (tokenize src) = false) :
    (∀ x src, t.Offers root here selection x src →
        scanSource (x.path root) (fixAll (x.path root) src selection.style) = []) ↔
      selection.style = .mark ∨ ∀ p ∈ t.selected root selection, ∀ src, t.readText p = .ok src →
        ∀ c ∈ candidates (tokenize src),
          Fix.leadsToVariable ((c.body (tokenize src)).drop (c.finding.type.start + 1)) := by
  have hsettled : ∀ p ∈ t.selected root selection, ∀ src, t.readText p = .ok src →
      (scanSource p (fixAll p src selection.style) = [] ↔ selection.style = .mark ∨
        ∀ c ∈ candidates (tokenize src),
          Fix.leadsToVariable ((c.body (tokenize src)).drop (c.finding.type.start + 1))) :=
    fun p hp src hread => scanSource_fixAll_eq_nil_iff p selection.style (hplain p hp src hread).1
      (hplain p hp src hread).2
  constructor
  · intro h
    refine or_iff_not_imp_left.2 fun hstyle p hp src hread => ?_
    obtain ⟨x, rfl, hx⟩ := ht.exists_offers hroot hp hread
    exact ((hsettled _ hp src hread).1 (h x src hx)).resolve_left hstyle
  · intro h x src hx
    obtain ⟨-, hp, hread⟩ := (ht.offers_iff hroot).1 hx
    exact (hsettled _ hp src hread).2 (h.imp_right fun hleads => hleads _ hp src hread)

theorem exists_scan_iff (hroot : t.kind root = .ok .directory) :
    (∃ report, (scan root selection : StateM Tree (Except Failure ScanReport)).run t =
        (.ok report, t) ∧ report.issues = []) ↔
      (ScanReport.ofReadings ((t.selected root selection).map t.reading)).issues = [] := by
  rw [Tree.run_scan selection hroot]
  constructor
  · rintro ⟨report, hscan, hnone⟩
    cases hscan
    exact hnone
  · exact fun hnone => ⟨_, rfl, hnone⟩

/-- A run without issues makes no changes. -/
theorem run_applyChanges_of_no_issues (hroot : t.kind root = .ok .directory)
    (h : (ScanReport.ofReadings ((t.selected root selection).map t.reading)).issues = []) :
    (applyChanges root selection : StateM Tree
      (Except Failure (List Change × List ApplyOutcome))).run t = (.ok ([], []), t) := by
  rw [run_applyChanges selection hroot, ScanReport.plan, h]
  rfl

/-- When all changes of a first run were made, a second run finds nothing and leaves the tree as it
is if and only if no backup is selected, but one in the place of a changed file, and no stray `&`
keeps a union part from its type. -/
theorem applyChanges_settles_iff {settings : Settings} (ht : t.WellFormed)
    (hsettings : settings.resolve = .ok selection)
    (hplain : ∀ p ∈ t.selected root selection, ∀ src, t.readText p = .ok src →
      PlainlyTyped (tokenize src) ∧
        ∀ c ∈ candidates (tokenize src), c.namesNull (tokenize src) = false)
    (hlink : ∀ p ∈ t.selected root selection,
      ¬t.isLink (Change.backupPath p selection.suffix) = true)
    (hrun : (applyChanges root selection : StateM Tree
      (Except Failure (List Change × List ApplyOutcome))).run t = (.ok (changes, outcomes), t'))
    (happlied : ∀ o ∈ outcomes, ∃ backup, o = .applied backup) :
    ((∃ report, (scan root selection : StateM Tree (Except Failure ScanReport)).run t' =
          (.ok report, t') ∧ report.issues = []) ∧
        (applyChanges root selection : StateM Tree
          (Except Failure (List Change × List ApplyOutcome))).run t' = (.ok ([], []), t')) ↔
      (∀ c ∈ changes,
        selection.shouldInclude (Change.backupPath c.path selection.suffix) = true →
          Change.backupPath c.path selection.suffix ∈ changes.map Change.path) ∧
      (selection.style = .mark ∨ ∀ p ∈ t.selected root selection, ∀ src, t.readText p = .ok src →
        ∀ c ∈ candidates (tokenize src),
          Fix.leadsToVariable ((c.body (tokenize src)).drop (c.finding.type.start + 1))) := by
  have hkind : t.kind root = .ok .directory := kind_of_run_applyChanges hrun
  obtain ⟨here, hroot⟩ := Tree.kind_eq_directory.1 hkind
  have hsuffix := Settings.isSuffix_of_resolve hsettings
  obtain ⟨edits, rfl, hedits, hafter⟩ := ht.exists_aftermath hroot hsuffix hlink hrun happlied
  have hkind' : t'.kind root = .ok .directory :=
    Tree.kind_eq_directory.2 ⟨here, Tree.resolve_root_congr hafter.frame hroot⟩
  rw [exists_scan_iff hkind', and_iff_left_of_imp (run_applyChanges_of_no_issues hkind'),
    hedits.issues_eq_nil_iff hafter hroot, hedits.clear_iff ht hroot hsuffix,
    ht.settled_iff hroot hplain]

def referenceTree : Tree := ⟨[([utf8 "a.php"], .file (Token.source referenceSample))]⟩

def unionSelection : Selection := { sampleSelection with style := .union }

/-- What the file of the tree holds is plainly typed. -/
theorem plainlyTyped_referenceTree {p : Path} (hp : p ∈ [⟨utf8 "./a.php"⟩]) {src : Bytes}
    (hread : referenceTree.readText p = .ok src) : PlainlyTyped (tokenize src) ∧
      (∀ c ∈ candidates (tokenize src), c.namesNull (tokenize src) = false) ∧
      ∀ c ∈ candidates (tokenize src),
        Fix.leadsToVariable ((c.body (tokenize src)).drop (c.finding.type.start + 1)) := by
  have hreads : Lexer.Reads ⟨false, false⟩ referenceSample := by decide
  have htokens : tokenize (Token.source referenceSample) = referenceSample := hreads
  have htext : referenceTree.readText ⟨utf8 "./a.php"⟩ = .ok (Token.source referenceSample) := rfl
  rw [List.mem_singleton.1 hp, htext] at hread
  obtain rfl := Except.ok.inj hread
  rw [htokens]
  decide

theorem applyChanges_settles_referenceTree :
    ∃ changes outcomes t', (applyChanges ⟨utf8 "."⟩ unionSelection : StateM Tree
        (Except Failure (List Change × List ApplyOutcome))).run referenceTree =
          (.ok (changes, outcomes), t') ∧ t' ≠ referenceTree ∧
      (applyChanges ⟨utf8 "."⟩ unionSelection : StateM Tree
        (Except Failure (List Change × List ApplyOutcome))).run t' = (.ok ([], []), t') := by
  have hrun : (applyChanges ⟨utf8 "."⟩ unionSelection : StateM Tree
      (Except Failure (List Change × List ApplyOutcome))).run referenceTree =
        (.ok ([⟨⟨utf8 "./a.php"⟩, Token.source referenceSample,
            utf8 "<?php function f(Foo|null &$a = null);"⟩], [.applied ⟨utf8 "./a.php.bak"⟩]),
          ⟨[([utf8 "a.php"], .file (utf8 "<?php function f(Foo|null &$a = null);")),
            ([utf8 "a.php.bak"], .file (Token.source referenceSample))]⟩) :=
    eq_of_toOption (by decide +kernel)
  have hsettings : ({ suffix := some (utf8 ".bak"), style := some .union } : Settings).resolve =
      .ok unionSelection := rfl
  have hselected : referenceTree.selected ⟨utf8 "."⟩ unionSelection = [⟨utf8 "./a.php"⟩] := by
    decide +kernel
  refine ⟨_, _, _, hrun, by decide +kernel, ((applyChanges_settles_iff (by decide) hsettings
    (fun p hp src hread => ?_) ?_ hrun (by simp)).2 ⟨by decide +kernel, .inr ?_⟩).2⟩
  · rw [hselected] at hp
    obtain ⟨hplain, hnull, -⟩ := plainlyTyped_referenceTree hp hread
    exact ⟨hplain, hnull⟩
  · rw [hselected]
    decide +kernel
  · intro p hp src hread
    rw [hselected] at hp
    exact (plainlyTyped_referenceTree hp hread).2.2

/-- With a suffix that makes a backup look like a source, a second run fixes the backup of the
first, which then has a backup itself. -/
theorem applyChanges_referenceTree :
    ({ suffix := some (utf8 ".php") } : Settings).resolve = .ok doubledSelection ∧
    (∀ p ∈ referenceTree.selected ⟨utf8 "."⟩ doubledSelection,
      ¬referenceTree.isLink (Change.backupPath p doubledSelection.suffix) = true ∧
        ∀ src, referenceTree.readText p = .ok src → PlainlyTyped (tokenize src) ∧
          ∀ c ∈ candidates (tokenize src), c.namesNull (tokenize src) = false) ∧
    ∃ changes outcomes t₁ changes' outcomes' t₂,
      (applyChanges ⟨utf8 "."⟩ doubledSelection : StateM Tree
        (Except Failure (List Change × List ApplyOutcome))).run referenceTree =
          (.ok (changes, outcomes), t₁) ∧ (∀ o ∈ outcomes, ∃ backup, o = .applied backup) ∧
      (applyChanges ⟨utf8 "."⟩ doubledSelection : StateM Tree
        (Except Failure (List Change × List ApplyOutcome))).run t₁ =
          (.ok (changes', outcomes'), t₂) ∧ changes' ≠ [] ∧
      t₁.read ⟨utf8 "a.php.php"⟩ = referenceTree.read ⟨utf8 "a.php"⟩ ∧
      t₂.read ⟨utf8 "a.php.php"⟩ ≠ t₁.read ⟨utf8 "a.php.php"⟩ := by
  have hselected : referenceTree.selected ⟨utf8 "."⟩ doubledSelection = [⟨utf8 "./a.php"⟩] := by
    decide +kernel
  have hrun : (applyChanges ⟨utf8 "."⟩ doubledSelection : StateM Tree
      (Except Failure (List Change × List ApplyOutcome))).run referenceTree =
        (.ok ([⟨⟨utf8 "./a.php"⟩, Token.source referenceSample,
            utf8 "<?php function f(?Foo &$a = null);"⟩], [.applied ⟨utf8 "./a.php.php"⟩]),
          ⟨[([utf8 "a.php"], .file (utf8 "<?php function f(?Foo &$a = null);")),
            ([utf8 "a.php.php"], .file (Token.source referenceSample))]⟩) :=
    eq_of_toOption (by decide +kernel)
  have hrun' : (applyChanges ⟨utf8 "."⟩ doubledSelection : StateM Tree
      (Except Failure (List Change × List ApplyOutcome))).run
        ⟨[([utf8 "a.php"], .file (utf8 "<?php function f(?Foo &$a = null);")),
          ([utf8 "a.php.php"], .file (Token.source referenceSample))]⟩ =
        (.ok ([⟨⟨utf8 "./a.php.php"⟩, Token.source referenceSample,
            utf8 "<?php function f(?Foo &$a = null);"⟩], [.applied ⟨utf8 "./a.php.php.php"⟩]),
          ⟨[([utf8 "a.php"], .file (utf8 "<?php function f(?Foo &$a = null);")),
            ([utf8 "a.php.php"], .file (utf8 "<?php function f(?Foo &$a = null);")),
            ([utf8 "a.php.php.php"], .file (Token.source referenceSample))]⟩) :=
    eq_of_toOption (by decide +kernel)
  refine ⟨rfl, fun p hp => ?_, _, _, _, _, _, _, hrun, by simp, hrun', by simp, by decide +kernel,
    by decide +kernel⟩
  rw [hselected] at hp
  refine ⟨?_, fun src hread => ?_⟩
  · rw [List.mem_singleton.1 hp]
    decide +kernel
  · obtain ⟨hplain, hnull, -⟩ := plainlyTyped_referenceTree hp hread
    exact ⟨hplain, hnull⟩

end ExplicitNull
