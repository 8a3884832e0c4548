import ExplicitNull.Proofs.Runs
import ExplicitNull.Proofs.Segments

/-!
Spellings of a root. A path may be respelled with dots and slashes in front and with more slashes
between its names and behind them. It leads to the same directory then, but excludes are looked for
in the path as it is spelled, between two slashes: the first name of a relative root has a slash
before it only if a `./` stands there. So the files that two spellings select are the same if and
only if the pieces that the excludes take from the two spellings shut out the same files.
-/
namespace ExplicitNull

namespace Path

/-- The names of a path; those of a relative one without the dots in front. -/
def trail (p : Path) : List Bytes :=
  if p.isAbsolute then p.names else p.names.dropWhile (· = utf8 ".")

/-- Two paths that start alike and have the same names, but for dots in front. -/
def Respells (p q : Path) : Prop := p.isAbsolute = q.isAbsolute ∧ p.trail = q.trail

instance (p q : Path) : Decidable (p.Respells q) := inferInstanceAs (Decidable (_ ∧ _))

/-- A `./` may stand before a relative path. -/
theorem respells_here {p : Path} (h : p.isAbsolute = false) :
    p.Respells ⟨utf8 "./" ++ p.raw⟩ := by
  have hraw : (⟨utf8 "./" ++ p.raw⟩ : Path) = ⟨utf8 "." ++ byte '/' :: p.raw⟩ := rfl
  have habsolute : (⟨utf8 "./" ++ p.raw⟩ : Path).isAbsolute = false := rfl
  refine ⟨by rw [h, habsolute], ?_⟩
  have hdot : names ⟨utf8 "."⟩ = [utf8 "."] := names_singleton (by decide) (by decide)
  rw [trail, trail, h, habsolute, hraw, names_slash, hdot]
  simp

/-- A slash may stand behind a path. -/
theorem respells_slash {p : Path} (h : p.raw ≠ []) : p.Respells ⟨p.raw ++ [byte '/']⟩ := by
  obtain ⟨b, rest, hraw⟩ := List.exists_cons_of_ne_nil h
  have habsolute : p.isAbsolute = (⟨p.raw ++ [byte '/']⟩ : Path).isAbsolute := by
    simp [isAbsolute, hraw]
  have hnames : names ⟨p.raw ++ [byte '/']⟩ = p.names := by
    rw [names_slash p.raw []]
    simp [names, Bytes.splitOn]
  exact ⟨habsolute, by rw [trail, trail, ← habsolute, hnames]⟩

/-- A slash may be repeated. -/
theorem respells_repeated (a b : Bytes) :
    Respells ⟨a ++ byte '/' :: b⟩ ⟨a ++ byte '/' :: byte '/' :: b⟩ := by
  have habsolute : isAbsolute ⟨a ++ byte '/' :: b⟩ =
      isAbsolute ⟨a ++ byte '/' :: byte '/' :: b⟩ := by
    cases a <;> rfl
  have hnames : names ⟨byte '/' :: b⟩ = names ⟨b⟩ := names_slash [] b
  refine ⟨habsolute, ?_⟩
  rw [trail, trail, ← habsolute, names_slash, names_slash a (byte '/' :: b), hnames]

end Path

namespace Tree

variable {t : Tree} {links left : Nat} {here there : Location} {p q root : Path} {x : Spot}
  {s : Selection}

theorem leads_dropDots_iff {names : List Bytes} :
    Leads t links here (names.dropWhile (· = utf8 ".")) left there ↔
      Leads t links here names left there := by
  induction names with
  | nil => exact Iff.rfl
  | cons name names ih =>
    by_cases hdot : name = utf8 "."
    · rw [List.dropWhile_cons_of_pos (by simpa using hdot), ih]
      refine ⟨Leads.stay (.inr hdot), fun h => ?_⟩
      cases h with
      | stay _ h => exact h
      | up h => exact absurd hdot (by decide)
      | down hdown _ _ => exact absurd hdot hdown.not_here
      | jump hdown _ _ => exact absurd hdot hdown.not_here
    · rw [List.dropWhile_cons_of_neg (by simpa using hdot)]

theorem leads_trail_iff : Leads t links here p.trail left there ↔
    Leads t links here p.names left there := by
  rw [Path.trail]
  split
  · exact Iff.rfl
  · exact leads_dropDots_iff

/-- However it is spelled, a root is the same directory. -/
theorem resolve_of_respells (h : t.resolve .target p = .ok (.found here .directory))
    (hrespells : p.Respells q) (hq : q.fault? = none) :
    t.resolve .target q = .ok (.found here .directory) := by
  obtain ⟨left, hleads⟩ := exists_leads_root h
  rw [← leads_trail_iff, hrespells.2, leads_trail_iff] at hleads
  rw [resolve, hq, Path.steps]
  dsimp only
  split
  · exact hleads.resolveFrom_slash
  · rw [List.append_nil]
    exact hleads.resolveFrom_nil

/-- A file below a directory that a selection asks for, whatever its path. -/
structure Seeks (t : Tree) (here : Location) (s : Selection) (x : Spot) : Prop where
  isFile : ∃ bytes, t.get? (x.location here) = some (.file bytes)
  enter : x.above.all Discovery.mayEnter = true
  extension :
    ((Path.extensionOf? x.name).any fun e => s.extensions.contains (Bytes.toLower e)) = true

/-- The path of a file below a root is not too long, and no exclude shuts it out. -/
def Passes (s : Selection) (root : Path) (x : Spot) : Prop :=
  (x.path root).raw.length < Path.tooLong ∧ ¬s.Excludes (root.slashed.segments ++ x.segments)

instance (s : Selection) (root : Path) (x : Spot) : Decidable (Passes s root x) :=
  inferInstanceAs (Decidable (_ ∧ _))

theorem WellFormed.path_mem_selected (ht : t.WellFormed) (hglobs : s.globs = [])
    (hroot : t.resolve .target root = .ok (.found here .directory)) (hx : x.IsProper) :
    x.path root ∈ t.selected root s ↔ t.Seeks here s x ∧ Passes s root x := by
  have hne := raw_ne_nil_of_resolve hroot
  rw [mem_selected, ht.mem_reached hroot, Selection.shouldInclude_iff hglobs,
    Spot.hasScannedExtension_path hne hx, Spot.segments_path hne hx.isNamed]
  constructor
  · rintro ⟨⟨y, hlists, hpath⟩, hextension, hexcludes⟩
    have hproper : y.IsProper := ht.isProper hlists.isFile.choose_spec
    obtain rfl := Spot.path_injective hne hx.isNamed hproper.isNamed hpath
    exact ⟨⟨hlists.isFile, hlists.enter, hextension⟩, hlists.short, hexcludes⟩
  · rintro ⟨hseeks, hshort, hexcludes⟩
    exact ⟨⟨x, ⟨hseeks.enter, hshort, hseeks.isFile⟩, rfl⟩, hseeks.extension, hexcludes⟩

theorem WellFormed.exists_selected_eq (ht : t.WellFormed) (s : Selection)
    (hroot : t.resolve .target root = .ok (.found here .directory)) :
    ∃ xs : List Spot, t.selected root s = xs.map (Spot.path root) ∧ ∀ x ∈ xs, x.IsProper := by
  refine @exists_eq_map _ _ (Spot.path root) _ _ fun p hp => ?_
  obtain ⟨x, hlists, hpath⟩ := (ht.mem_reached hroot).1 (mem_selected.1 hp).1
  exact ⟨x, ht.isProper hlists.isFile.choose_spec, hpath⟩

theorem run_collectFiles (s : Selection) (h : t.kind root = .ok .directory) :
    (collectFiles root s : StateM Tree (Except Failure (List Path))).run t =
      (.ok (t.selected root s), t) := by
  unfold collectFiles
  rw [run_bind, run_collect s.shouldInclude h]
  rfl

/-- The files that a selection without globs comes to: those it asks for whose paths pass. -/
theorem WellFormed.exists_run_collectFiles (ht : t.WellFormed) (hglobs : s.globs = [])
    (hroot : t.resolve .target root = .ok (.found here .directory)) :
    ∃ xs : List Spot,
      (collectFiles root s : StateM Tree (Except Failure (List Path))).run t =
        (.ok (xs.map (Spot.path root)), t) ∧
      (∀ x ∈ xs, x.IsProper) ∧ ∀ x, x ∈ xs ↔ t.Seeks here s x ∧ Passes s root x := by
  have hne := raw_ne_nil_of_resolve hroot
  obtain ⟨xs, hxs, hproper⟩ := ht.exists_selected_eq s hroot
  refine ⟨xs, ?_, hproper, fun x => ⟨fun hx => ?_, fun hx => ?_⟩⟩
  · rw [run_collectFiles s (kind_eq_directory.2 ⟨here, hroot⟩), hxs]
  · rw [← ht.path_mem_selected hglobs hroot (hproper x hx), hxs]
    exact List.mem_map_of_mem hx
  · have hmem := (ht.path_mem_selected hglobs hroot
      (ht.isProper hx.1.isFile.choose_spec)).2 hx
    rw [hxs] at hmem
    obtain ⟨y, hy, hpath⟩ := List.mem_map.1 hmem
    have hnamed : x.IsNamed := (ht.isProper hx.1.isFile.choose_spec).isNamed
    rwa [← Spot.path_injective hne (hproper y hy).isNamed hnamed hpath]

end Tree

open ExplicitNull.Tree

variable {t : Tree} {s : Selection} {p q : Path}

theorem Selection.Excludes.append_left {segments : List Bytes} (h : s.Excludes segments)
    (before : List Bytes) : s.Excludes (before ++ segments) := by
  obtain ⟨e, he, hinfix⟩ := h
  exact ⟨e, he, hinfix.trans (List.suffix_append before segments).isInfix⟩

/-- Two spellings of a root select the same files if and only if they agree on the paths of all
files whose own directories do not shut them out: whether they are too long, and whether an exclude
takes in a piece of the root. -/
theorem collectFiles_respelled_iff (ht : t.WellFormed) (hglobs : s.globs = [])
    (hp : t.kind p = .ok .directory) (hrespells : p.Respells q) (hq : q.fault? = none) :
    ∃ (here : Location) (xs ys : List Spot), t.resolve .target p = .ok (.found here .directory) ∧
      t.resolve .target q = .ok (.found here .directory) ∧
      (collectFiles p s : StateM Tree (Except Failure (List Path))).run t =
        (.ok (xs.map (Spot.path p)), t) ∧
      (collectFiles q s : StateM Tree (Except Failure (List Path))).run t =
        (.ok (ys.map (Spot.path q)), t) ∧
      (∀ x ∈ xs ++ ys, x.IsProper) ∧
      ((∀ x, x ∈ xs ↔ x ∈ ys) ↔
        ∀ x, t.Seeks here s x → ¬s.Excludes x.segments → (Passes s p x ↔ Passes s q x)) := by
  obtain ⟨here, hp⟩ := kind_eq_directory.1 hp
  have hq := resolve_of_respells hp hrespells hq
  obtain ⟨xs, hxs, hproper, hmem⟩ := ht.exists_run_collectFiles hglobs hp
  obtain ⟨ys, hys, hproper', hmem'⟩ := ht.exists_run_collectFiles hglobs hq
  refine ⟨here, xs, ys, hp, hq, hxs, hys, fun x hx => ?_, ?_⟩
  · exact (List.mem_append.1 hx).elim (hproper x) (hproper' x)
  simp only [hmem, hmem', and_congr_right_iff]
  refine forall_congr' fun x => imp_congr_right fun _ => ⟨fun h _ => h, fun h => ?_⟩
  by_cases hown : s.Excludes x.segments
  · have hshut : ∀ root, ¬Passes s root x := fun root hpass => hpass.2 (hown.append_left _)
    exact iff_of_false (hshut p) (hshut q)
  · exact h hown

def vendorTree : Tree :=
  ⟨[([utf8 "src"], .directory), ([utf8 "src", utf8 "a.php"], .file (utf8 "<?php")),
    ([utf8 "src", utf8 "vendor"], .directory),
    ([utf8 "src", utf8 "vendor", utf8 "b.php"], .file (utf8 "<?php"))]⟩

def excluding (e : Bytes) : Selection :=
  ⟨Settings.defaultExtensions, [e], [], Settings.defaultSuffix, .mark⟩

theorem collectFiles_respelled_vendorTree :
    ({ exclude := [utf8 "vendor"] } : Settings).resolve = .ok (excluding (utf8 "vendor")) ∧
      vendorTree.WellFormed ∧ Path.Respells ⟨utf8 "src"⟩ ⟨utf8 ".//src/"⟩ ∧
      ∃ xs ys : List Spot,
        (collectFiles ⟨utf8 "src"⟩ (excluding (utf8 "vendor")) :
          StateM Tree (Except Failure (List Path))).run vendorTree =
            (.ok (xs.map (Spot.path ⟨utf8 "src"⟩)), vendorTree) ∧
        (collectFiles ⟨utf8 ".//src/"⟩ (excluding (utf8 "vendor")) :
          StateM Tree (Except Failure (List Path))).run vendorTree =
            (.ok (ys.map (Spot.path ⟨utf8 ".//src/"⟩)), vendorTree) ∧
        ∀ x, x ∈ xs ↔ x ∈ ys := by
  have ht : vendorTree.WellFormed := by decide
  have hrespells : Path.Respells ⟨utf8 "src"⟩ ⟨utf8 ".//src/"⟩ := by decide
  obtain ⟨here, xs, ys, hp, hq, hxs, hys, -, hsame⟩ :=
    @collectFiles_respelled_iff _ (excluding (utf8 "vendor")) _ _ ht rfl (by decide) hrespells
      (by decide)
  refine ⟨rfl, ht, hrespells, xs, ys, hxs, hys, hsame.2 fun x hseeks _ => ?_⟩
  obtain rfl : here = [utf8 "src"] := by
    have : vendorTree.resolve .target ⟨utf8 "src"⟩ = .ok (.found [utf8 "src"] .directory) := rfl
    simpa using (hp.symm.trans this)
  obtain ⟨bytes, hget⟩ := hseeks.isFile
  have hmem := mem_entries_of_get? (x.location_ne_nil _) hget
  have hspot : x = ⟨[], utf8 "a.php"⟩ ∨ x = ⟨[utf8 "vendor"], utf8 "b.php"⟩ := by
    simp only [vendorTree, List.mem_cons, Prod.mk.injEq, reduceCtorEq, and_false, List.not_mem_nil,
      or_false, false_or] at hmem
    rcases hmem with ⟨hloc, -⟩ | ⟨hloc, -⟩
    · exact .inl (@Spot.location_injective x ⟨[], utf8 "a.php"⟩ _ hloc)
    · exact .inr (@Spot.location_injective x ⟨[utf8 "vendor"], utf8 "b.php"⟩ _ hloc)
  rcases hspot with rfl | rfl <;> decide

/-- An exclude that is the root shuts out all files if a `./` stands before the root, and none if
it does not. -/
theorem collectFiles_respelled_srcTree :
    ({ exclude := [utf8 "src"] } : Settings).resolve = .ok (excluding (utf8 "src")) ∧
      vendorTree.WellFormed ∧ Path.Respells ⟨utf8 "src"⟩ ⟨utf8 "./src"⟩ ∧
      (collectFiles ⟨utf8 "src"⟩ (excluding (utf8 "src")) :
        StateM Tree (Except Failure (List Path))).run vendorTree =
          (.ok [⟨utf8 "src/a.php"⟩, ⟨utf8 "src/vendor/b.php"⟩], vendorTree) ∧
      (collectFiles ⟨utf8 "./src"⟩ (excluding (utf8 "src")) :
        StateM Tree (Except Failure (List Path))).run vendorTree = (.ok [], vendorTree) := by
  refine ⟨rfl, by decide, by decide, ?_, ?_⟩
  · rw [run_collectFiles _ (by decide)]
    rfl
  · rw [run_collectFiles _ (by decide)]
    rfl

/-! ### Plain excludes -/

namespace Path

/-- A name as excludes are looked for in it: its pieces between backslashes. -/
def parts (name : Bytes) : List Bytes := Bytes.splitOn (byte '/') (text ⟨name⟩)

theorem splitOn_text (a : Bytes) :
    Bytes.splitOn (byte '/') (text ⟨a⟩) = (Bytes.splitOn (byte '/') a).flatMap parts := by
  have hjoin : ∀ pieces : List Bytes, pieces ≠ [] →
      Bytes.splitOn (byte '/') (text ⟨Bytes.joinWith [byte '/'] pieces⟩) =
        pieces.flatMap parts := by
    intro pieces hpieces
    induction pieces with
    | nil => exact absurd rfl hpieces
    | cons piece pieces ih =>
      cases pieces with
      | nil => exact (List.flatMap_singleton parts piece).symm
      | cons piece' pieces =>
        rw [Fix.joinWith_cons (by simp), List.append_assoc, List.singleton_append, text_slash,
          Bytes.splitOn_append, ih (by simp), List.flatMap_cons]
        rfl
  rw [← hjoin _ (Bytes.splitOn_ne_nil _ a), Bytes.joinWith_splitOn]

variable {root : Path} {e : Bytes}

/-- What excludes see of a path, dots and empty pieces apart, comes from its trail. -/
theorem mem_flatMap_parts_iff (hempty : e ≠ []) (hdot : e ≠ utf8 ".") (root : Path) :
    e ∈ (Bytes.splitOn (byte '/') root.raw).flatMap parts ↔ e ∈ root.trail.flatMap parts := by
  have hnil : e ∉ parts [] := by
    have : parts [] = [[]] := rfl
    simp [this, hempty]
  have hhere : e ∉ parts (utf8 ".") := by
    have : parts (utf8 ".") = [utf8 "."] := by decide
    simp [this, hdot]
  have hnames : e ∈ (Bytes.splitOn (byte '/') root.raw).flatMap parts ↔
      e ∈ root.names.flatMap parts := by
    simp only [List.mem_flatMap, names, List.mem_filter, decide_eq_true_eq]
    refine exists_congr fun n => ⟨fun h => ⟨⟨h.1, fun hn => hnil (hn ▸ h.2)⟩, h.2⟩, fun h => ?_⟩
    exact ⟨h.1.1, h.2⟩
  rw [hnames, trail]
  split
  · exact Iff.rfl
  · induction root.names with
    | nil => exact Iff.rfl
    | cons name names ih =>
      by_cases hname : name = utf8 "."
      · rw [List.dropWhile_cons_of_pos (by simpa using hname), List.flatMap_cons,
          List.mem_append, hname]
        exact (or_iff_right hhere).trans ih
      · rw [List.dropWhile_cons_of_neg (by simpa using hname)]

/-- What a path starts with: nothing before its slash, a dot, or the first name of its trail. -/
theorem exists_splitOn_raw (hroot : root.raw ≠ []) :
    ∃ first rest, Bytes.splitOn (byte '/') root.raw = first :: rest ∧
      (first = [] ∨ first = utf8 "." ∨ root.trail.head? = some first) := by
  obtain ⟨b, bytes, hraw⟩ := List.exists_cons_of_ne_nil hroot
  by_cases hb : b = byte '/'
  · exact ⟨[], Bytes.splitOn (byte '/') bytes, by rw [hraw, Bytes.splitOn, if_pos hb], .inl rfl⟩
  · obtain ⟨piece, pieces, hbytes⟩ :=
      List.exists_cons_of_ne_nil (Bytes.splitOn_ne_nil (byte '/') bytes)
    have hsplit : Bytes.splitOn (byte '/') root.raw = (b :: piece) :: pieces := by
      rw [hraw, Bytes.splitOn, if_neg hb, hbytes]
    refine ⟨b :: piece, pieces, hsplit, .inr ?_⟩
    refine or_iff_not_imp_left.2 fun hdot => ?_
    have habsolute : root.isAbsolute = false := by simp [isAbsolute, hraw, hb]
    rw [trail, habsolute, if_neg (by decide), names, hsplit, List.filter_cons_of_pos (by simp),
      List.dropWhile_cons_of_neg (by simpa using hdot)]
    rfl

theorem mem_segments_slashed (hroot : root.raw ≠ []) (hempty : e ≠ []) :
    e ∈ root.slashed.segments ↔ e ∈ (Bytes.splitOn (byte '/') root.text).drop 1 := by
  obtain ⟨start, b, hraw⟩ := (List.eq_nil_or_concat root.raw).resolve_left hroot
  rw [List.concat_eq_append] at hraw
  by_cases hb : b = byte '/'
  · have hslashed : root.slashed.raw = start ++ [byte '/'] := by simp [slashed, join, hraw, hb]
    have hroot' : root = ⟨start ++ byte '/' :: []⟩ := by rw [← hb, ← hraw]
    obtain ⟨piece, pieces, hpieces⟩ :=
      List.exists_cons_of_ne_nil (Bytes.splitOn_ne_nil (byte '/') (text ⟨start⟩))
    have hnil : Bytes.splitOn (byte '/') (text ⟨[]⟩) = [[]] := rfl
    rw [segments_slashed hslashed, hroot', text_slash, Bytes.splitOn_append, hpieces, hnil]
    simp [hempty]
  · have hslashed : root.slashed.raw = root.raw ++ [byte '/'] := by
      simp [slashed, join, hraw, hb]
    rw [segments_slashed hslashed]

/-- A plain exclude that is not what the trail of a root starts with is a segment of the root in
every spelling or in none. -/
theorem mem_segments_slashed_iff (hroot : root.raw ≠ []) (hempty : e ≠ []) (hdot : e ≠ utf8 ".")
    (hfirst : ∀ n ∈ root.trail.head?, (parts n).head? ≠ some e) :
    e ∈ root.slashed.segments ↔ e ∈ root.trail.flatMap parts := by
  obtain ⟨first, rest, hsplit, hcases⟩ := exists_splitOn_raw hroot
  obtain ⟨part, more, hparts⟩ :=
    List.exists_cons_of_ne_nil (Bytes.splitOn_ne_nil (byte '/') (text ⟨first⟩))
  have hne : e ≠ part := by
    rintro rfl
    rcases hcases with rfl | rfl | hhead
    · have hnil : Bytes.splitOn (byte '/') (text ⟨[]⟩) = [[]] := rfl
      rw [hnil] at hparts
      exact hempty (List.cons.inj hparts).1.symm
    · have hhere : Bytes.splitOn (byte '/') (text ⟨utf8 "."⟩) = [utf8 "."] := by decide
      rw [hhere] at hparts
      exact hdot (List.cons.inj hparts).1.symm
    · exact hfirst first hhead (by rw [parts, hparts]; rfl)
  have htext : Bytes.splitOn (byte '/') root.text = part :: (more ++ rest.flatMap parts) := by
    rw [show root.text = text ⟨root.raw⟩ from rfl, splitOn_text, hsplit, List.flatMap_cons, parts,
      hparts]
    rfl
  rw [mem_segments_slashed hroot hempty, ← mem_flatMap_parts_iff hempty hdot, ← splitOn_text,
    show text ⟨root.raw⟩ = root.text from rfl, htext]
  simp [hne]

end Path

/-- An exclude that is one name, and not a dot. -/
def Selection.IsPlain (e : Bytes) : Prop := e ≠ [] ∧ e ≠ utf8 "." ∧ byte '/' ∉ e

instance (e : Bytes) : Decidable (Selection.IsPlain e) := inferInstanceAs (Decidable (_ ∧ _))

namespace Selection

variable {segments more : List Bytes}

theorem excludes_iff (hplain : ∀ e ∈ s.segments, IsPlain e) :
    s.Excludes segments ↔ ∃ e ∈ skippedDirectories ++ s.segments, IsPlain e ∧ e ∈ segments := by
  have hskipped : ∀ e ∈ skippedDirectories, IsPlain e := by decide
  have hall : ∀ e ∈ skippedDirectories ++ s.segments, IsPlain e := fun e he =>
    (List.mem_append.1 he).elim (hskipped e) (hplain e)
  refine exists_congr fun e => and_congr_right fun he => ?_
  have hinfix : [e] <:+: segments ↔ e ∈ segments := by
    refine ⟨fun h => h.subset List.mem_cons_self, fun h => ?_⟩
    obtain ⟨before, behind, rfl⟩ := List.append_of_mem h
    exact ⟨before, behind, by simp⟩
  rw [Bytes.splitOn_of_notMem (hall e he).2.2, hinfix]
  exact (and_iff_right (hall e he)).symm

end Selection

/-- With plain excludes, none of them what the root starts with, and paths that are not too long,
the files that are selected do not depend on the spelling of the root. -/
theorem collectFiles_respelled_of_plain {here : Location} (ht : t.WellFormed)
    (hglobs : s.globs = []) (hp : t.resolve .target p = .ok (.found here .directory))
    (hrespells : p.Respells q) (hq : q.fault? = none)
    (hplain : ∀ e ∈ s.segments, Selection.IsPlain e)
    (hfirst : ∀ n ∈ p.trail.head?, ∀ e ∈ Selection.skippedDirectories ++ s.segments,
      (Path.parts n).head? ≠ some e)
    (hshort : ∀ x, t.Seeks here s x → ∀ root ∈ [p, q],
      (x.path root).raw.length < Path.tooLong) :
    ∃ xs ys : List Spot,
      (collectFiles p s : StateM Tree (Except Failure (List Path))).run t =
        (.ok (xs.map (Spot.path p)), t) ∧
      (collectFiles q s : StateM Tree (Except Failure (List Path))).run t =
        (.ok (ys.map (Spot.path q)), t) ∧
      ∀ x, x ∈ xs ↔ x ∈ ys := by
  have hq' := resolve_of_respells hp hrespells hq
  obtain ⟨xs, hxs, -, hmem⟩ := ht.exists_run_collectFiles hglobs hp
  obtain ⟨ys, hys, -, hmem'⟩ := ht.exists_run_collectFiles hglobs hq'
  refine ⟨xs, ys, hxs, hys, fun x => ?_⟩
  rw [hmem, hmem', and_congr_right_iff]
  intro hseeks
  have hroot : ∀ root : Path, root.raw ≠ [] → root.trail = p.trail →
      (s.Excludes (root.slashed.segments ++ x.segments) ↔
        ∃ e ∈ Selection.skippedDirectories ++ s.segments, Selection.IsPlain e ∧
          (e ∈ p.trail.flatMap Path.parts ∨ e ∈ x.segments)) := by
    intro root hne htrail
    rw [Selection.excludes_iff hplain]
    refine exists_congr fun e => and_congr_right fun he => and_congr_right fun hplain => ?_
    rw [List.mem_append, Path.mem_segments_slashed_iff hne hplain.1 hplain.2.1, htrail]
    intro n hn
    exact hfirst n (htrail ▸ hn) e he
  rw [Passes, Passes, hroot p (raw_ne_nil_of_resolve hp) rfl,
    hroot q (raw_ne_nil_of_resolve hq') hrespells.2.symm]
  exact and_congr_left fun _ => iff_of_true (hshort x hseeks p (by simp))
    (hshort x hseeks q (by simp))

end ExplicitNull
