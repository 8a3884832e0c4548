import ExplicitNull.Proofs.Restoring
import ExplicitNull.Proofs.Orders
import ExplicitNull.Proofs.Settling

/-!
What a scan plans. The files that a selection asks for are different paths, in any spelling, so the
plan of a report has for each file just the issues of its own text. The changes prepared are then
those of the files that fixing all their issues changes.
-/
namespace ExplicitNull

namespace Assoc

variable {α β : Type} {cmp : α → α → Ordering} {k k' : α} {v : β} {entries : List (α × β)}

theorem mem_of_get? (h : get? cmp k entries = some v) :
    ∃ k', cmp k k' = .eq ∧ (k', v) ∈ entries := by
  induction entries with
  | nil => cases h
  | cons entry rest ih =>
    obtain ⟨a, w⟩ := entry
    unfold get? at h
    split at h
    · next heq =>
      cases h
      exact ⟨a, heq, List.mem_cons_self ..⟩
    · obtain ⟨k', heq, hmem⟩ := ih h
      exact ⟨k', heq, List.mem_cons_of_mem _ hmem⟩

theorem get?_congr [Std.TransCmp cmp] (h : cmp k k' = .eq) (entries : List (α × β)) :
    get? cmp k entries = get? cmp k' entries := by
  induction entries with
  | nil => rfl
  | cons entry rest ih =>
    obtain ⟨a, w⟩ := entry
    rw [get?, get?, ih, Std.TransCmp.congr_left h]

theorem get?_eq_none (h : ∀ k' ∈ entries.map Prod.fst, cmp k k' ≠ .eq) :
    get? cmp k entries = none := by
  cases hget : get? cmp k entries with
  | none => rfl
  | some v =>
    obtain ⟨k', heq, hmem⟩ := mem_of_get? hget
    exact absurd heq (h k' (List.mem_map.2 ⟨(k', v), hmem, rfl⟩))

theorem Ascending.get?_of_mem [Std.TransCmp cmp] (h : Ascending cmp entries)
    (hmem : (k, v) ∈ entries) : get? cmp k entries = some v := by
  induction entries with
  | nil => cases hmem
  | cons entry rest ih =>
    obtain ⟨a, w⟩ := entry
    obtain ⟨hfirst, hrest⟩ := List.pairwise_cons.1 h
    rcases List.mem_cons.1 hmem with heq | hmem
    · cases heq
      exact if_pos Std.ReflCmp.compare_self
    · have hlt : cmp a k = .lt := hfirst k (List.mem_map.2 ⟨(k, v), hmem, rfl⟩)
      have hgt : cmp k a ≠ .eq := by
        rw [Std.OrientedCmp.gt_of_lt hlt]
        simp
      rw [get?, if_neg hgt]
      exact ih hrest hmem

/-- A value is replaced at its key, in any spelling, and nowhere else. -/
theorem Ascending.get?_alter [Std.TransCmp cmp] (h : Ascending cmp entries) (k k' : α)
    (f : Option β → β) : get? cmp k' (Assoc.alter cmp k f entries) =
      if cmp k' k = .eq then some (f (get? cmp k entries)) else get? cmp k' entries := by
  induction entries with
  | nil => rfl
  | cons entry rest ih =>
    obtain ⟨a, w⟩ := entry
    obtain ⟨hfirst, hrest⟩ := List.pairwise_cons.1 h
    unfold Assoc.alter
    cases hcmp : cmp k a with
    | lt =>
      have hnone : get? cmp k ((a, w) :: rest) = none := by
        refine get?_eq_none fun b hb heq => ?_
        rcases List.mem_cons.1 hb with hb | hb
        · rw [hb, hcmp] at heq
          cases heq
        · rw [Std.TransCmp.lt_trans hcmp (hfirst b hb)] at heq
          cases heq
      rw [hnone]
      rfl
    | eq =>
      rw [get?, get?, get?, if_pos hcmp, ← Std.TransCmp.congr_right hcmp]
      split <;> rfl
    | gt =>
      have hne : cmp k a ≠ .eq := by simp [hcmp]
      rw [get?, get?, get?, if_neg hne, ih hrest]
      by_cases heq : cmp k' k = .eq
      · have hne' : cmp k' a ≠ .eq := by
          rw [Std.TransCmp.congr_left heq]
          exact hne
        rw [if_neg hne', if_pos heq, if_pos heq]
      · rw [if_neg heq, if_neg heq]

end Assoc

namespace Plan

variable {plan : Plan} {p : Path}

theorem file?_insert (h : Assoc.Ascending Path.compare plan.files) (i : Issue) (p : Path) :
    (plan.insert i).file? p = if p.compare i.file = .eq then
      some (FilePlan.insert ((plan.file? p).getD []) i.address i.typeStart)
      else plan.file? p := by
  unfold file? insert
  rw [h.get?_alter]
  split
  · next heq => rw [Assoc.get?_congr heq]
  · rfl

def isOf (p : Path) (i : Issue) : Bool := p.compare i.file == .eq

theorem file?_foldl_insert (issues : List Issue)
    (h : Assoc.Ascending Path.compare plan.files) (p : Path) :
    (issues.foldl insert plan).file? p = (issues.filter (isOf p)).foldl
      (fun old i => some (FilePlan.insert (old.getD []) i.address i.typeStart)) (plan.file? p) := by
  induction issues generalizing plan with
  | nil => rfl
  | cons i issues ih =>
    rw [List.foldl_cons, ih (ascending_insert h i), file?_insert h]
    by_cases heq : p.compare i.file = .eq
    · rw [if_pos heq, List.filter_cons_of_pos (by simp [isOf, heq]), List.foldl_cons]
    · rw [if_neg heq, List.filter_cons_of_neg (by simp [isOf, heq])]

theorem foldl_insert_some (issues : List Issue) (plan : FilePlan) :
    issues.foldl (fun old i => some (FilePlan.insert (old.getD []) i.address i.typeStart))
      (some plan) = some ((issues.map Issue.target).foldl
        (fun plan (a, t) => FilePlan.insert plan a t) plan) := by
  induction issues generalizing plan with
  | nil => rfl
  | cons i issues ih => exact ih _

/-- The plan of a file is made of its own issues. -/
theorem file?_ofIssues (issues : List Issue) (p : Path) :
    (ofIssues issues).file? p = if issues.filter (isOf p) = [] then none
      else some (FilePlan.ofList ((issues.filter (isOf p)).map Issue.target)) := by
  have hempty : Assoc.Ascending Path.compare empty.files := List.Pairwise.nil
  unfold ofIssues
  rw [file?_foldl_insert issues hempty]
  cases issues.filter (isOf p) with
  | nil => rfl
  | cons i own =>
    rw [if_neg (List.cons_ne_nil i own), List.foldl_cons]
    exact foldl_insert_some own _

end Plan

namespace ScanReport

variable {readings : List Reading} {p : Path} {src : Bytes}

theorem issues_cons (reading : Reading) (rest : List Reading) :
    (ofReadings (reading :: rest)).issues =
      (reading.2.toOption.map (scanSource reading.1)).getD [] ++ (ofReadings rest).issues := by
  obtain ⟨path, text⟩ := reading
  cases text <;> rfl

/-- A report without issues is one of texts without issues. -/
theorem issues_eq_nil_iff : (ofReadings readings).issues = [] ↔
    ∀ p src, (p, .ok src) ∈ readings → scanSource p src = [] := by
  induction readings with
  | nil => simp [ofReadings, empty]
  | cons reading rest ih =>
    obtain ⟨path, text⟩ := reading
    rw [issues_cons, List.append_eq_nil_iff, ih]
    cases text with
    | error e => simp [Except.toOption]
    | ok src =>
      simp only [Except.toOption, Option.map_some, Option.getD_some, List.mem_cons, Prod.mk.injEq,
        Except.ok.injEq]
      constructor
      · rintro ⟨hnone, hrest⟩ p src (⟨rfl, rfl⟩ | hmem)
        · exact hnone
        · exact hrest p src hmem
      · exact fun h => ⟨h path src (.inl ⟨rfl, rfl⟩), fun p src hmem => h p src (.inr hmem)⟩

theorem filter_isOf_of_forall_ne (h : ∀ reading ∈ readings, p.compare reading.1 ≠ .eq) :
    (ofReadings readings).issues.filter (Plan.isOf p) = [] := by
  refine List.filter_eq_nil_iff.2 fun i hi heq => ?_
  obtain ⟨reading, hmem, hfile⟩ := exists_reading_of_mem hi
  exact h reading hmem (by simpa [Plan.isOf, hfile] using heq)

theorem file_of_mem_scanSource {i : Issue} (h : i ∈ scanSource p src) : i.file = p := by
  obtain ⟨c, -, hc⟩ := List.mem_map.1 h
  rw [← hc]
  rfl

/-- Of readings of different paths each has its own issues in the report. -/
theorem filter_isOf (hne : readings.Pairwise fun r r' => r.1.compare r'.1 ≠ .eq)
    (hmem : (p, .ok src) ∈ readings) :
    (ofReadings readings).issues.filter (Plan.isOf p) = scanSource p src := by
  induction readings with
  | nil => cases hmem
  | cons reading rest ih =>
    obtain ⟨hfirst, hrest⟩ := List.pairwise_cons.1 hne
    rw [issues_cons, List.filter_append]
    rcases List.mem_cons.1 hmem with heq | hbehind
    · subst heq
      rw [filter_isOf_of_forall_ne hfirst, List.append_nil]
      refine List.filter_eq_self.2 fun i hi => ?_
      have hself : p.compare p = .eq := Std.ReflCmp.compare_self
      rw [Plan.isOf, file_of_mem_scanSource hi, hself]
      rfl
    · rw [ih hrest hbehind]
      refine List.append_left_eq_self.2 (List.filter_eq_nil_iff.2 fun i hi heq => ?_)
      obtain ⟨path, text⟩ := reading
      cases text with
      | error e => cases hi
      | ok text =>
        rw [Plan.isOf, file_of_mem_scanSource hi, beq_iff_eq] at heq
        exact hfirst (p, .ok src) hbehind (Std.OrientedCmp.eq_symm heq)

/-- The plan of a report has for a file that was read what its own text asks for. -/
theorem file?_plan (hne : readings.Pairwise fun r r' => r.1.compare r'.1 ≠ .eq)
    (hmem : (p, .ok src) ∈ readings) :
    (ofReadings readings).plan.file? p =
      if scanSource p src = [] then none else some (issuePlan p src) := by
  rw [plan, Plan.file?_ofIssues, filter_isOf hne hmem]
  rfl

end ScanReport

theorem Spot.eq_of_compare {root : Path} {x y : Spot} (hroot : root.raw ≠ []) (hx : x.IsProper)
    (hy : y.IsProper) (h : (x.path root).compare (y.path root) = .eq) : x = y := by
  have hinjective : Function.Injective Path.Component.name := fun a b hab =>
    Path.Component.name.inj hab
  rw [Path.compare_eq_eq, components_path hroot hx.isNamed, components_path hroot hy.isNamed,
    hx.name.inner?, hy.name.inner?, List.append_assoc, List.append_assoc] at h
  obtain ⟨habove, hname⟩ := List.append_inj' (List.append_cancel_left h) rfl
  obtain ⟨a, n⟩ := x
  obtain ⟨b, k⟩ := y
  simp only [Option.toList_some, List.cons.injEq, Path.Component.name.injEq, and_true] at hname
  obtain rfl : a = b := hinjective.list_map habove
  rw [hname]

/-- Without issues a source stays as it is when all are fixed. -/
theorem fixAll_of_scanSource {p : Path} {src : Bytes} (h : scanSource p src = []) (style : Style) :
    fixAll p src style = src :=
  fixSource_of_no_candidates (scanSource_eq_nil_iff.1 h) _ style

theorem Prepared.mem_ofReadings_iff {style : Style} {readings : List (FilePlan × Reading)}
    {c : Change} : c ∈ (ofReadings style readings).changes ↔
      ∃ plan, (plan, c.path, .ok c.before) ∈ readings ∧ c.after = fixSource c.before plan style ∧
        c.after ≠ c.before := by
  refine ⟨exists_reading_of_mem, ?_⟩
  rintro ⟨plan, hmem, hafter, hne⟩
  induction readings with
  | nil => cases hmem
  | cons reading rest ih =>
    obtain ⟨plan', path, text⟩ := reading
    rcases List.mem_cons.1 hmem with heq | hmem
    · obtain ⟨rfl, hreading⟩ := Prod.mk.inj heq
      obtain ⟨rfl, rfl⟩ := Prod.mk.inj hreading
      unfold ofReadings add
      dsimp only
      rw [← hafter, if_neg hne]
      exact List.mem_cons_self ..
    · have hrest := ih hmem
      cases text with
      | error e => exact hrest
      | ok text =>
        unfold ofReadings add
        dsimp only
        split
        · exact hrest
        · exact List.mem_cons_of_mem _ hrest

namespace Tree

variable {t : Tree} {root : Path} {here : Location} {selection : Selection} {c : Change}

theorem WellFormed.exists_spot_of_selected (ht : t.WellFormed)
    (hroot : t.resolve .target root = .ok (.found here .directory)) {p : Path}
    (hp : p ∈ t.selected root selection) :
    ∃ x, t.Lists Discovery.mayEnter root here x ∧ x.IsProper ∧ p = x.path root := by
  obtain ⟨x, hx, hpath⟩ := (ht.mem_reached hroot).1 (mem_selected.1 hp).1
  obtain ⟨bytes, hget⟩ := hx.isFile
  exact ⟨x, hx, ht.isProper hget, hpath⟩

/-- Two selected paths that are the same but for their spelling are one. -/
theorem WellFormed.eq_of_compare_selected (ht : t.WellFormed)
    (hroot : t.resolve .target root = .ok (.found here .directory)) {p q : Path}
    (hp : p ∈ t.selected root selection) (hq : q ∈ t.selected root selection)
    (h : p.compare q = .eq) : p = q := by
  obtain ⟨x, -, hx, rfl⟩ := ht.exists_spot_of_selected hroot hp
  obtain ⟨y, -, hy, rfl⟩ := ht.exists_spot_of_selected hroot hq
  rw [Spot.eq_of_compare (raw_ne_nil_of_resolve hroot) hx hy h]

/-- No two files that a walk reaches are the same path. -/
theorem WellFormed.pairwise_reached (ht : t.WellFormed)
    (hroot : t.resolve .target root = .ok (.found here .directory)) (keep : Path → Bool) :
    ((t.reached root).filter keep).Pairwise fun p q => p.compare q ≠ .eq := by
  have hraw := raw_ne_nil_of_resolve hroot
  have hnodup : (t.reached root).Nodup := by
    rw [reached_of_resolve hroot]
    exact ht.nodup_filesBelow hraw
  refine (hnodup.imp_of_mem fun {p q} hp hq hne heq => ?_).filter keep
  obtain ⟨x, hx, rfl⟩ := (ht.mem_reached hroot).1 hp
  obtain ⟨y, hy, rfl⟩ := (ht.mem_reached hroot).1 hq
  obtain ⟨bytes, hget⟩ := hx.isFile
  obtain ⟨bytes', hget'⟩ := hy.isFile
  exact hne (by rw [Spot.eq_of_compare hraw (ht.isProper hget) (ht.isProper hget') heq])

theorem WellFormed.pairwise_readings (ht : t.WellFormed)
    (hroot : t.resolve .target root = .ok (.found here .directory)) (selection : Selection) :
    ((t.selected root selection).map t.reading).Pairwise fun r r' => r.1.compare r'.1 ≠ .eq := by
  refine List.pairwise_map.2 (((Sorting.perm_sort _ _).pairwise_iff fun {p q} hne heq => ?_).2
    (ht.pairwise_reached hroot selection.shouldInclude))
  exact hne (Std.OrientedCmp.eq_symm heq)

theorem mem_prepared_iff {plan : Plan} {style : Style} :
    c ∈ (t.prepared plan style).changes ↔
      ∃ filePlan, (c.path, filePlan) ∈ plan.files ∧ t.readText c.path = .ok c.before ∧
        c.after = fixSource c.before filePlan style ∧ c.after ≠ c.before := by
  unfold prepared Plan.paths
  rw [Prepared.mem_ofReadings_iff, List.map_map, List.zip_map']
  refine exists_congr fun filePlan => ?_
  constructor
  · rintro ⟨hmem, hfix⟩
    obtain ⟨⟨path, filePlan'⟩, hentry, heq⟩ := List.mem_map.1 hmem
    simp only [Function.comp_apply, reading, Prod.mk.injEq] at heq
    obtain ⟨rfl, rfl, hread⟩ := heq
    exact ⟨hentry, hread, hfix⟩
  · rintro ⟨hmem, hread, hfix⟩
    exact ⟨List.mem_map.2 ⟨_, hmem, by simp [reading, hread]⟩, hfix⟩

/-- The changes that a scan comes to are those of the selected texts that fixing changes. -/
theorem WellFormed.mem_changes_iff (ht : t.WellFormed)
    (hroot : t.resolve .target root = .ok (.found here .directory)) {style : Style} :
    c ∈ (t.prepared (ScanReport.ofReadings ((t.selected root selection).map t.reading)).plan
        style).changes ↔
      c.path ∈ t.selected root selection ∧ t.readText c.path = .ok c.before ∧
        c.after = fixAll c.path c.before style ∧ c.after ≠ c.before := by
  have hfile : c.path ∈ t.selected root selection → t.readText c.path = .ok c.before →
      (ScanReport.ofReadings ((t.selected root selection).map t.reading)).plan.file? c.path =
        if scanSource c.path c.before = [] then none
        else some (issuePlan c.path c.before) := by
    intro hselected hread
    refine ScanReport.file?_plan (ht.pairwise_readings hroot selection) ?_
    exact List.mem_map.2 ⟨c.path, hselected, by rw [reading, hread]⟩
  constructor
  · intro hc
    have hselected := mem_selected_of_prepared hc
    obtain ⟨filePlan, hmem, hread, hafter, hne⟩ := mem_prepared_iff.1 hc
    refine ⟨hselected, hread, ?_, hne⟩
    have hget := (Plan.ascending_ofIssues _).get?_of_mem hmem
    have hplan := (hfile hselected hread).symm.trans hget
    split at hplan
    · cases hplan
    · rw [hafter, ← Option.some.inj hplan, fixAll]
  · rintro ⟨hselected, hread, hafter, hne⟩
    have hsome : scanSource c.path c.before ≠ [] := fun hnone =>
      hne (hafter.trans (fixAll_of_scanSource hnone style))
    have hplan := hfile hselected hread
    rw [if_neg hsome] at hplan
    obtain ⟨q, heq, hmem⟩ := Assoc.mem_of_get? hplan
    have hq : q ∈ t.selected root selection := by
      obtain ⟨r, hr, hpath⟩ :=
        ScanReport.exists_reading_of_mem_plan (List.mem_map.2 ⟨(q, _), hmem, rfl⟩)
      obtain ⟨p, hp, rfl⟩ := List.mem_map.1 hr
      obtain rfl : p = q := hpath
      exact hp
    rw [← ht.eq_of_compare_selected hroot hselected hq heq] at hmem
    exact mem_prepared_iff.2 ⟨_, hmem, hread, hafter, hne⟩

end Tree

end ExplicitNull
