import ExplicitNull.Proofs.DirectoryWalks
import ExplicitNull.Proofs.IssueCoordinates

/-!
Reports of scans. Each file that is found is counted or put on record, and the issues of the texts
come in the order of their files and addresses. A plan made of issues in this order enters each
behind the one before, so that none takes the place of another, and the plan lists them all.
-/
namespace ExplicitNull

instance : Std.OrientedCmp Address.compare where
  eq_swap {a b} := by
    unfold Address.compare
    rw [Ordering.swap_then, ← Std.OrientedCmp.eq_swap, ← Std.OrientedCmp.eq_swap]

def Issue.compare (i j : Issue) : Ordering :=
  (i.file.compare j.file).then (i.address.compare j.address)

def Issue.coordinates (i : Issue) : Path × Address × Nat := (i.file, i.target)

def Plan.listing (plan : Plan) : List (Path × Address × Nat) :=
  plan.files.flatMap fun (p, filePlan) => filePlan.map fun target => (p, target)

/-- A plan that lists some issues in their order and has no file without them. -/
structure Plan.Holds (plan : Plan) (issues : List Issue) : Prop where
  listing_eq : plan.listing = issues.map Issue.coordinates
  nonempty : ∀ entry ∈ plan.files, entry.2 ≠ []
  ascending : Assoc.Ascending Path.compare plan.files

/-- What a report says of files with some contents: texts are counted, with their issues one after
another, and the other files are on record. -/
structure ScanReport.Covers (r : ScanReport) (files : List Path) (contents : Path → Bytes) :
    Prop where
  filesScanned_eq : r.filesScanned = (files.filter fun p => Utf8.isValid (contents p)).length
  skipped_eq : r.skipped =
    (files.filter fun p => !Utf8.isValid (contents p)).map fun p => ⟨p, .notText⟩
  issues_eq : r.issues =
    (files.filter fun p => Utf8.isValid (contents p)).flatMap fun p => scanSource p (contents p)

/-! ### Entering behind the last -/

namespace Assoc

variable {α β : Type} {cmp : α → α → Ordering} {entries : List (α × β)} {k : α}

/-- A key behind all others is entered at the end. -/
theorem alter_of_forall_lt [Std.OrientedCmp cmp] (f : Option β → β)
    (h : ∀ k' ∈ entries.map Prod.fst, cmp k' k = .lt) :
    alter cmp k f entries = entries ++ [(k, f none)] := by
  induction entries with
  | nil => rfl
  | cons entry rest ih =>
    obtain ⟨a, v⟩ := entry
    obtain ⟨hfirst, hrest⟩ := List.forall_mem_cons.1 h
    have hgt : cmp k a = .gt := Std.OrientedCmp.gt_of_lt hfirst
    rw [alter, hgt]
    dsimp only
    rw [ih hrest, List.cons_append]

theorem mem_alter_cases {entry : α × β} {f : Option β → β} (h : entry ∈ alter cmp k f entries) :
    entry ∈ entries ∨ ∃ old, entry.2 = f old := by
  induction entries with
  | nil => exact .inr ⟨none, by rw [List.mem_singleton.1 h]⟩
  | cons first rest ih =>
    obtain ⟨a, v⟩ := first
    unfold alter at h
    split at h
    · rcases List.mem_cons.1 h with rfl | h
      · exact .inr ⟨none, rfl⟩
      · exact .inl h
    · rcases List.mem_cons.1 h with rfl | h
      · exact .inr ⟨some v, rfl⟩
      · exact .inl (List.mem_cons_of_mem _ h)
    · rcases List.mem_cons.1 h with rfl | h
      · exact .inl (List.mem_cons_self ..)
      · exact (ih h).imp_left (List.mem_cons_of_mem _)

end Assoc

theorem FilePlan.insert_ne_nil (plan : FilePlan) (a : Address) (t : Nat) :
    plan.insert a t ≠ [] := by
  unfold FilePlan.insert Assoc.alter
  split
  · simp
  · split <;> simp

namespace Plan

variable {plan : Plan} {issues : List Issue} {i : Issue}

theorem listing_cons (p : Path) (filePlan : FilePlan) (files : List (Path × FilePlan)) :
    listing ⟨(p, filePlan) :: files⟩ =
      filePlan.map (fun target => (p, target)) ++ listing ⟨files⟩ := List.flatMap_cons

theorem mem_listing {p : Path} {filePlan : FilePlan} {target : Address × Nat}
    (h : (p, filePlan) ∈ plan.files) (htarget : target ∈ filePlan) : (p, target) ∈ plan.listing :=
  List.mem_flatMap.2 ⟨(p, filePlan), h, List.mem_map_of_mem htarget⟩

theorem insert_cons_of_lt {p : Path} (h : p.compare i.file = .lt) (filePlan : FilePlan)
    (rest : List (Path × FilePlan)) :
    insert ⟨(p, filePlan) :: rest⟩ i = ⟨(p, filePlan) :: (insert ⟨rest⟩ i).files⟩ := by
  unfold insert
  rw [Assoc.alter, Std.OrientedCmp.gt_of_lt h]

theorem insert_last {filePlan : FilePlan}
    (h : ∀ a ∈ filePlan.map Prod.fst, a.compare i.address = .lt) :
    insert ⟨[(i.file, filePlan)]⟩ i = ⟨[(i.file, filePlan ++ [i.target])]⟩ := by
  have hself : i.file.compare i.file = .eq := Std.ReflCmp.compare_self
  unfold insert
  rw [Assoc.alter, hself]
  dsimp only
  rw [Option.getD_some, FilePlan.insert, Assoc.alter_of_forall_lt _ h]
  rfl

/-- An issue behind all entries of a plan is entered behind them. -/
theorem listing_insert (hascending : Assoc.Ascending Path.compare plan.files)
    (hnonempty : ∀ entry ∈ plan.files, entry.2 ≠ [])
    (hbehind : ∀ c ∈ plan.listing, c.1.compare i.file = .lt ∨
      c.1 = i.file ∧ c.2.1.compare i.address = .lt) :
    (plan.insert i).listing = plan.listing ++ [i.coordinates] := by
  obtain ⟨files⟩ := plan
  have hself : i.file.compare i.file = .eq := Std.ReflCmp.compare_self
  have hkey : ∀ entry ∈ files, entry.1.compare i.file = .lt ∨ entry.1 = i.file := by
    rintro ⟨p, filePlan⟩ hmem
    obtain ⟨target, htarget⟩ := List.exists_mem_of_ne_nil _ (hnonempty _ hmem)
    exact (hbehind (p, target) (mem_listing hmem htarget)).imp_right And.left
  induction files with
  | nil => rfl
  | cons entry rest ih =>
    obtain ⟨p, filePlan⟩ := entry
    obtain ⟨hfirst, hrest⟩ := List.pairwise_cons.1 hascending
    obtain ⟨hp, hkeys⟩ := List.forall_mem_cons.1 hkey
    rcases hp with hlt | rfl
    · rw [insert_cons_of_lt hlt, listing_cons, listing_cons, List.append_assoc]
      congr 1
      refine ih hrest (List.forall_mem_cons.1 hnonempty).2 (fun c hc => hbehind c ?_) hkeys
      rw [listing_cons]
      exact List.mem_append_right _ hc
    · -- The file of the issue is the last one, as a file behind it would come behind the issue.
      have hlast : rest = [] := by
        refine List.eq_nil_iff_forall_not_mem.2 fun entry hmem => ?_
        have hgt := hfirst entry.1 (List.mem_map_of_mem hmem)
        rcases hkeys entry hmem with hlt | heq
        · rw [Std.OrientedCmp.gt_of_lt hgt] at hlt
          cases hlt
        · rw [heq, hself] at hgt
          cases hgt
      subst hlast
      have htargets : ∀ a ∈ filePlan.map Prod.fst, a.compare i.address = .lt := by
        intro a ha
        obtain ⟨target, htarget, rfl⟩ := List.mem_map.1 ha
        have hmem : (i.file, target) ∈ listing ⟨[(i.file, filePlan)]⟩ :=
          mem_listing (List.mem_cons_self ..) htarget
        rcases hbehind _ hmem with hlt | ⟨-, hlt⟩
        · rw [hself] at hlt
          cases hlt
        · exact hlt
      simp [insert_last htargets, listing, Issue.coordinates]

/-- One more issue behind those that a plan holds. -/
theorem Holds.insert (h : plan.Holds issues)
    (hbehind : ∀ j ∈ issues, j.compare i = .lt)
    (hsame : ∀ j ∈ issues, j.file.compare i.file = .eq → j.file = i.file) :
    (plan.insert i).Holds (issues ++ [i]) where
  listing_eq := by
    rw [listing_insert h.ascending h.nonempty, h.listing_eq, List.map_append]
    · rfl
    · intro c hc
      rw [h.listing_eq] at hc
      obtain ⟨j, hj, rfl⟩ := List.mem_map.1 hc
      rcases Ordering.then_eq_lt.1 (hbehind j hj) with hlt | ⟨heq, hlt⟩
      · exact .inl hlt
      · exact .inr ⟨hsame j hj heq, hlt⟩
  nonempty entry hentry := by
    rcases Assoc.mem_alter_cases hentry with hold | ⟨old, hnew⟩
    · exact h.nonempty entry hold
    · rw [hnew]
      exact FilePlan.insert_ne_nil _ _ _
  ascending := ascending_insert h.ascending i

/-- A plan holds all issues that it is made of if they come in order. -/
theorem holds_ofIssues (horder : issues.Pairwise fun i j => i.compare j = .lt)
    (hsame : issues.Pairwise fun i j => i.file.compare j.file = .eq → i.file = j.file) :
    (ofIssues issues).Holds issues := by
  induction issues using List.reverseRecOn with
  | nil => exact ⟨rfl, by simp [ofIssues, empty], .nil⟩
  | append_singleton issues i ih =>
    obtain ⟨horder, -, hbehind⟩ := List.pairwise_append.1 horder
    obtain ⟨hsame, -, hspelled⟩ := List.pairwise_append.1 hsame
    have hinsert : ofIssues (issues ++ [i]) = (ofIssues issues).insert i := List.foldl_concat ..
    rw [hinsert]
    exact (ih horder hsame).insert (fun j hj => hbehind j hj i (List.mem_singleton_self i))
      fun j hj => hspelled j hj i (List.mem_singleton_self i)

end Plan

/-! ### Scans -/

/-- Files that are read, each as a text or as no text. -/
theorem ScanReport.covers_ofReadings (files : List Path) (contents : Path → Bytes) :
    (ofReadings (files.map fun p => (p, if Utf8.isValid (contents p) then .ok (contents p)
      else .error .notText))).Covers files contents := by
  induction files with
  | nil => exact ⟨rfl, rfl, rfl⟩
  | cons p files ih =>
    rw [List.map_cons]
    by_cases hvalid : Utf8.isValid (contents p) = true
    · rw [if_pos hvalid]
      exact ⟨by simp [ofReadings, hvalid, ih.filesScanned_eq],
        by simp [ofReadings, hvalid, ih.skipped_eq], by simp [ofReadings, hvalid, ih.issues_eq]⟩
    · rw [if_neg hvalid]
      exact ⟨by simp [ofReadings, hvalid, ih.filesScanned_eq],
        by simp [ofReadings, hvalid, ih.skipped_eq], by simp [ofReadings, hvalid, ih.issues_eq]⟩

theorem pairwise_scanSource (file : Path) (src : Bytes) :
    (scanSource file src).Pairwise fun i j => i.compare j = .lt := by
  refine List.pairwise_map.2 ((pairwise_candidates (tokenize src)).imp fun {c d} hlt => ?_)
  have hself : file.compare file = .eq := Std.ReflCmp.compare_self
  change (file.compare file).then (c.address.compare d.address) = .lt
  rw [hself]
  exact hlt

section Covers

variable {r : ScanReport} {files : List Path} {contents : Path → Bytes}
  (h : r.Covers files contents) (hfiles : files.Pairwise fun p q => p.compare q = .lt)

include h hfiles

theorem ScanReport.Covers.pairwise_issues :
    r.issues.Pairwise fun i j => i.compare j = .lt := by
  rw [h.issues_eq, List.pairwise_flatMap]
  constructor
  · exact fun p _ => pairwise_scanSource p (contents p)
  · refine (hfiles.filter _).imp fun {p q} hlt i hi j hj => ?_
    rw [Issue.compare, ScanReport.file_of_mem_scanSource hi, ScanReport.file_of_mem_scanSource hj,
      hlt]
    rfl

theorem ScanReport.Covers.holds_plan : r.plan.Holds r.issues := by
  refine Plan.holds_ofIssues (h.pairwise_issues hfiles) ?_
  rw [h.issues_eq, List.pairwise_flatMap]
  constructor
  · intro p _
    refine List.pairwise_of_forall_mem_list fun i hi j hj _ => ?_
    rw [file_of_mem_scanSource hi, file_of_mem_scanSource hj]
  · refine (hfiles.filter _).imp fun {p q} hlt i hi j hj heq => ?_
    rw [file_of_mem_scanSource hi, file_of_mem_scanSource hj, hlt] at heq
    cases heq

end Covers

namespace Tree

variable {t t' : Tree} {root p : Path} {here : Location} {selection : Selection}
  {report : ScanReport}

def contents (t : Tree) (p : Path) : Bytes := (t.read p).toOption.getD []

theorem WellFormed.read_selected (ht : t.WellFormed)
    (hroot : t.resolve .target root = .ok (.found here .directory))
    (hp : p ∈ t.selected root selection) : t.read p = .ok (t.contents p) := by
  obtain ⟨x, hx, -, rfl⟩ := ht.exists_spot_of_selected hroot hp
  obtain ⟨bytes, hget⟩ := hx.isFile
  have hfile := (ht.reaches_of_get? hroot hget).file (ht.fits hroot hget hx.short) hget
  have hread : t.read (x.path root) = .ok bytes := by rw [Tree.read, hfile]; rfl
  rw [contents, hread]
  rfl

theorem WellFormed.covers_selected (ht : t.WellFormed)
    (hroot : t.resolve .target root = .ok (.found here .directory)) (selection : Selection) :
    (ScanReport.ofReadings ((t.selected root selection).map t.reading)).Covers
      (t.selected root selection) t.contents := by
  have hreadings : (t.selected root selection).map t.reading = (t.selected root selection).map
      fun p => (p, if Utf8.isValid (t.contents p) then .ok (t.contents p)
        else .error .notText) := by
    refine List.map_congr_left fun p hp => ?_
    rw [reading, Tree.readText, ht.read_selected hroot hp]
  rw [hreadings]
  exact ScanReport.covers_ofReadings _ _

theorem kind_of_run_scan
    (h : (scan root selection : StateM Tree (Except Failure ScanReport)).run t =
      (.ok report, t')) : t.kind root = .ok .directory := by
  by_contra hkind
  obtain ⟨f, hroot⟩ := run_validateRoot_of_ne hkind
  unfold scan at h
  rw [run_bind, hroot] at h
  cases h

end Tree

open ExplicitNull.Tree

/-- A scan that succeeds reports all files that are found, its issues come in order, and the plan of
the report holds them all. -/
theorem scan_complete {t t' : Tree} (ht : t.WellFormed) {root : Path} {selection : Selection}
    {report : ScanReport}
    (hscan : (scan root selection : StateM Tree (Except Failure ScanReport)).run t =
      (.ok report, t')) :
    t' = t ∧ ∃ files contents,
      (collectFiles root selection : StateM Tree (Except Failure (List Path))).run t =
        (.ok files, t) ∧
      files.Pairwise (fun p q => p.compare q = .lt) ∧
      (∀ p ∈ files, t.read p = .ok (contents p)) ∧
      report.Covers files contents ∧
      report.issues.Pairwise (fun i j => i.compare j = .lt) ∧
      report.plan.Holds report.issues := by
  have hkind := kind_of_run_scan hscan
  obtain ⟨here, hroot⟩ := kind_eq_directory.1 hkind
  rw [run_scan selection hkind, Prod.mk.injEq, Except.ok.injEq] at hscan
  obtain ⟨rfl, rfl⟩ := hscan
  have hascending := ascending_sortPaths (ht.pairwise_reached hroot selection.shouldInclude)
  have hcovers := ht.covers_selected hroot selection
  exact ⟨rfl, t.selected root selection, t.contents, run_collectFiles selection hkind, hascending,
    fun p hp => ht.read_selected hroot hp, hcovers, hcovers.pairwise_issues hascending,
    hcovers.holds_plan hascending⟩

def mixedTree : Tree :=
  ⟨[([utf8 "r"], .directory), ([utf8 "r", utf8 "b.php"], .file [0xff]),
    ([utf8 "r", utf8 "a.php"], .file (Token.source linedSample))]⟩

theorem scan_complete_mixedTree :
    ∃ report, (scan ⟨utf8 "r"⟩ (excluding (utf8 "vendor")) :
        StateM Tree (Except Failure ScanReport)).run mixedTree = (.ok report, mixedTree) ∧
      report.filesScanned = 1 ∧ report.skipped = [⟨⟨utf8 "r/b.php"⟩, .notText⟩] ∧
      report.plan.listing = [(⟨utf8 "r/a.php"⟩, ⟨0, 1⟩, 0)] := by
  have ht : mixedTree.WellFormed := by decide
  have hkind : mixedTree.kind ⟨utf8 "r"⟩ = .ok .directory := by decide
  refine ⟨_, run_scan _ hkind, ?_⟩
  obtain ⟨-, files, contents, hfiles, -, hread, hcovers, -, hplan⟩ :=
    scan_complete ht (run_scan (excluding (utf8 "vendor")) hkind)
  have hfound : (collectFiles ⟨utf8 "r"⟩ (excluding (utf8 "vendor")) :
      StateM Tree (Except Failure (List Path))).run mixedTree =
        (.ok [⟨utf8 "r/a.php"⟩, ⟨utf8 "r/b.php"⟩], mixedTree) := by
    rw [run_collectFiles _ hkind]
    rfl
  rw [hfiles, Prod.mk.injEq, Except.ok.injEq] at hfound
  obtain rfl := hfound.1
  have hfirst : contents ⟨utf8 "r/a.php"⟩ = Token.source linedSample :=
    Except.ok.inj ((hread _ (by simp)).symm.trans rfl)
  have hsecond : contents ⟨utf8 "r/b.php"⟩ = [0xff] :=
    Except.ok.inj ((hread _ (by simp)).symm.trans rfl)
  have htext : Utf8.isValid (Token.source linedSample) = true := by decide
  have hbinary : Utf8.isValid [0xff] = false := by decide
  have hreads : Lexer.Reads ⟨false, false⟩ linedSample := by decide
  have htokens : tokenize (Token.source linedSample) = linedSample := hreads
  have htargets : (candidates linedSample).map (fun c => (c.address, c.finding.type.start)) =
      [(⟨0, 1⟩, 0)] := by decide
  refine ⟨?_, ?_, ?_⟩
  · simp [hcovers.filesScanned_eq, hfirst, hsecond, htext, hbinary]
  · simp [hcovers.skipped_eq, hfirst, hsecond, htext, hbinary]
  · have hissues := hcovers.issues_eq
    simp only [List.filter_cons, hfirst, hsecond, htext, hbinary, Bool.false_eq_true, if_true,
      if_false, List.filter_nil, List.flatMap_singleton, scanSource, htokens] at hissues
    rw [hplan.listing_eq, hissues]
    calc _ = ((candidates linedSample).map fun c => (c.address, c.finding.type.start)).map
          (Prod.mk ⟨utf8 "r/a.php"⟩) := by
            rw [List.map_map, List.map_map]
            rfl
      _ = _ := by
        rw [htargets]
        rfl

end ExplicitNull
