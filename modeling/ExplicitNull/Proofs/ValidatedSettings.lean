import ExplicitNull.Proofs.Blanks
import ExplicitNull.Proofs.GlobOutlines
import ExplicitNull.Proofs.Runs
import ExplicitNull.Proofs.Segments

/-!
Settings that have passed the checks of their file. The checks read an exclude as it is given, but
what is used of it stands between blanks. A blank is a plain character wherever a glob has one, so
an exclude that can be read can be read without the blanks at its ends, with one exception: a
backslash before the blanks at the end takes the first of them, and nothing without them. Beyond
that only the nesting of the globs, which is not checked, can keep the settings from being used.
-/
namespace ExplicitNull

theorem Glob.isPlain_ofNat {n : Nat} (h : n ≤ 0x20 ∨ 0x80 ≤ n) : IsPlain (Char.ofNat n) := by
  by_cases hvalid : n.isValidChar
  · have hchar : Char.ofNat n = Char.ofNatAux n hvalid := dif_pos hvalid
    rw [hchar]
    exact h
  · have hchar : (Char.ofNat n).toNat = 0 := congrArg Char.toNat (dif_neg hvalid)
    exact .inl (hchar ▸ Nat.zero_le _)

namespace Blank

open Glob (IsPlain)
open Utf8 (decode owedAfter leadBits tail)

variable {b c d : UInt8} {rest x : Bytes}

theorem AllBlank.starts (h : AllBlank (b :: rest)) : Utf8.Starts b := by
  unfold Utf8.Starts
  cases h with
  | one h _ => grind [isBlank1]
  | two h _ => grind [isBlank2]
  | three h _ => grind [isBlank3]

theorem exists_decode_of_isBlank1 (h : isBlank1 b = true) :
    ∃ ch, IsPlain ch ∧ ∀ z, decode (b :: z) = ch :: decode z := by
  have hb : b ≤ 0x20 := by grind [isBlank1]
  exact ⟨_, Glob.isPlain_ofNat (.inl (UInt8.le_iff_toNat_le.1 hb)), Utf8.decode_ascii (by grind)⟩

theorem exists_decode_of_isBlank2 (h : isBlank2 b c = true) :
    ∃ ch, IsPlain ch ∧ ∀ z, decode (b :: c :: z) = ch :: decode z := by
  obtain ⟨rfl, rfl | rfl⟩ : b = 0xC2 ∧ (c = 0x85 ∨ c = 0xA0) := by simpa [isBlank2] using h
  · exact ⟨Char.ofNat 0x85, by decide, fun _ => rfl⟩
  · exact ⟨Char.ofNat 0xA0, by decide, fun _ => rfl⟩

theorem exists_decode_of_isBlank3 (h : isBlank3 b c d = true) :
    ∃ ch, IsPlain ch ∧ ∀ z, decode (b :: c :: d :: z) = ch :: decode z := by
  have hb : b = 0xE1 ∨ b = 0xE2 ∨ b = 0xE3 := by grind [isBlank3]
  obtain ⟨howed, hlead⟩ : owedAfter b = some [tail, tail] ∧ 1 ≤ leadBits b := by
    rcases hb with rfl | rfl | rfl <;> decide
  have hc : tail.holds c = true := by grind [isBlank3, Utf8.Span.holds, Utf8.tail]
  have hd : tail.holds d = true := by grind [isBlank3, Utf8.Span.holds, Utf8.tail]
  refine ⟨Char.ofNat ((leadBits b * 64 + (c.toNat - 0x80)) * 64 + (d.toNat - 0x80)),
    Glob.isPlain_ofNat (.inr (by omega)), fun z => ?_⟩
  simp [decode, Utf8.decodeFrom, howed, hc, hd]

/-- Blanks at the start of a text are read as plain characters. -/
theorem exists_decode (h : AllBlank x) : ∃ cs, (∀ c ∈ cs, IsPlain c) ∧
    ∀ z, decode (x ++ z) = cs ++ decode z := by
  induction h with
  | nil => exact ⟨[], by simp, fun _ => rfl⟩
  | one h _ ih =>
    obtain ⟨cs, hcs, hrest⟩ := ih
    obtain ⟨ch, hch, hfirst⟩ := exists_decode_of_isBlank1 h
    exact ⟨ch :: cs, List.forall_mem_cons.2 ⟨hch, hcs⟩,
      fun z => (hfirst _).trans (congrArg _ (hrest z))⟩
  | two h _ ih =>
    obtain ⟨cs, hcs, hrest⟩ := ih
    obtain ⟨ch, hch, hfirst⟩ := exists_decode_of_isBlank2 h
    exact ⟨ch :: cs, List.forall_mem_cons.2 ⟨hch, hcs⟩,
      fun z => (hfirst _).trans (congrArg _ (hrest z))⟩
  | three h _ ih =>
    obtain ⟨cs, hcs, hrest⟩ := ih
    obtain ⟨ch, hch, hfirst⟩ := exists_decode_of_isBlank3 h
    exact ⟨ch :: cs, List.forall_mem_cons.2 ⟨hch, hcs⟩,
      fun z => (hfirst _).trans (congrArg _ (hrest z))⟩

/-- The characters of a text are those without the blanks at its ends, between plain ones. -/
theorem exists_decode_trim (bs : Bytes) : ∃ xs ys, (∀ c ∈ xs, IsPlain c) ∧ (∀ c ∈ ys, IsPlain c) ∧
    decode bs = xs ++ (decode (trim bs) ++ ys) := by
  obtain ⟨x, y, hx, hy, heq⟩ := exists_eq_trim bs
  obtain ⟨xs, hxs, hfront⟩ := exists_decode hx
  obtain ⟨ys, hys, hback⟩ := exists_decode hy
  have hrest : decode (trim bs ++ y) = decode (trim bs) ++ ys := by
    have hy' := hback []
    rw [List.append_nil] at hy'
    cases y with
    | nil =>
      obtain rfl : ys = [] := by simpa [decode, Utf8.decodeFrom] using hy'.symm
      rw [List.append_nil, List.append_nil]
    | cons b rest =>
      rw [Utf8.decode_append hy.starts, hy']
      exact congrArg _ (List.append_nil ys)
  refine ⟨xs, ys, hxs, hys, ?_⟩
  rw [← hrest, ← hfront, ← heq]

end Blank

/-! ### Excludes -/

theorem Glob.checkNesting_eq_ok {globs : List Glob} : checkNesting globs = .ok () ↔
    ∀ g ∈ globs, g.method ≠ .comparison → g.isTooDeep = false := by
  have halone : (globs.filter (·.method = .alone)).find? isTooDeep = none ↔
      ∀ g ∈ globs, g.method = .alone → g.isTooDeep = false := by
    simp
  have htogether : (globs.filter (·.method = .together)).findIdx? isTooDeep = none ↔
      ∀ g ∈ globs, g.method = .together → g.isTooDeep = false := by
    simp
  have hmethods : (∀ g ∈ globs, g.method ≠ .comparison → g.isTooDeep = false) ↔
      (∀ g ∈ globs, g.method = .alone → g.isTooDeep = false) ∧
        ∀ g ∈ globs, g.method = .together → g.isTooDeep = false := by
    refine ⟨fun h => ⟨fun g hg hm => h g hg ?_, fun g hg hm => h g hg ?_⟩, fun h g hg hm => ?_⟩
    · simp [hm]
    · simp [hm]
    · cases hmethod : g.method with
      | comparison => exact absurd hmethod hm
      | alone => exact h.1 g hg hmethod
      | together => exact h.2 g hg hmethod
  rw [hmethods, ← halone, ← htogether]
  unfold checkNesting
  split
  · next hfound => simp [hfound]
  · next hnone =>
    split
    · next hfound => simp [hfound]
    · next hfound => simp [hnone, hfound]

namespace Settings

variable {s : Settings} {e : Bytes} {excludes : List Bytes} {g : Glob} {globs : List Glob}
  {error : SettingsError}

/-- Whether an exclude without the blanks at its ends has a backslash that takes nothing. -/
def losesEscape (e : Bytes) : Bool := Glob.endsInEscape (Utf8.decode (Blank.trim e))

theorem isGlob_trim (e : Bytes) : isGlob (Blank.trim e) = isGlob e := by
  have hmem : ∀ b, Blank.IsVisible b → (b ∈ Blank.trim e ↔ b ∈ e) := fun b hb =>
    ⟨Blank.mem_of_mem_trim, Blank.mem_trim_of_mem hb⟩
  rw [Bool.eq_iff_iff]
  unfold isGlob
  rw [List.any_eq_true, List.any_eq_true]
  refine exists_congr fun b => and_congr_left fun hb => hmem b ?_
  simp only [Bool.or_eq_true, beq_iff_eq] at hb
  rcases hb with ((rfl | rfl) | rfl) | rfl <;> decide

/-- An exclude that can be read can be read without the blanks at its ends, unless a backslash is
left over. -/
theorem parseGlob_trim (h : parseGlob e = .ok g) :
    (parseGlob (Blank.trim e)).map (fun _ => ()) =
      if losesEscape e then .error .danglingEscape else .ok () := by
  obtain ⟨xs, ys, hxs, hys, heq⟩ := Blank.exists_decode_trim e
  unfold parseGlob at h ⊢
  have hcheck := Glob.parse_eq_check (Utf8.decode e)
  rw [h, heq] at hcheck
  rw [Glob.parse_eq_check]
  exact Glob.Outline.check_inner hxs hys hcheck.symm

theorem checkExcludes_eq_ok : checkExcludes excludes = .ok () ↔
    ∀ e ∈ excludes, isGlob e = true → ∃ g, parseGlob e = .ok g := by
  induction excludes with
  | nil => simp [checkExcludes]
  | cons e rest ih =>
    unfold checkExcludes
    rw [List.forall_mem_cons, ← ih]
    by_cases hglob : isGlob e = true
    · cases hparse : parseGlob e <;> simp [hglob]
    · simp [hglob]

theorem checkExcludes_of_validate (h : s.validate = .ok ()) : checkExcludes s.exclude = .ok () := by
  unfold validate at h
  split at h
  · cases h
  split at h
  · cases h
  · exact h

theorem filter_excludes_isGlob (s : Settings) :
    s.excludes.filter isGlob = (s.exclude.filter isGlob).map Blank.trim := by
  unfold Settings.excludes
  rw [List.filter_filter, List.filter_map]
  congr 1
  refine List.filter_congr fun e _ => ?_
  rw [Function.comp_apply, isGlob_trim]
  cases hglob : isGlob e with
  | false => rfl
  | true =>
    have hne : Blank.trim e ≠ [] := by
      intro hnil
      rw [← isGlob_trim, hnil] at hglob
      cases hglob
    simpa using hne

theorem filter_excludes_plain (s : Settings) : s.excludes.filter (!isGlob ·) =
    (s.exclude.filter fun e => !isGlob e && !(Blank.trim e).isEmpty).map Blank.trim := by
  unfold Settings.excludes
  rw [List.filter_filter, List.filter_map]
  congr 1
  refine List.filter_congr fun e _ => ?_
  rw [Function.comp_apply, isGlob_trim]

theorem parseGlobs_eq_ok :
    parseGlobs excludes = .ok globs ↔ excludes.map parseGlob = globs.map .ok := by
  induction excludes generalizing globs with
  | nil => cases globs <;> simp [parseGlobs]
  | cons e rest ih =>
    unfold parseGlobs
    rw [List.map_cons]
    cases hparse : parseGlob e with
    | error cause => cases globs <;> simp
    | ok g =>
      cases globs with
      | nil => cases parseGlobs rest <;> simp [Except.map]
      | cons g' more =>
        rw [List.map_cons, List.cons.injEq, Except.ok.injEq, ← ih]
        cases parseGlobs rest <;> simp [Except.map]

theorem exists_of_parseGlobs_eq_error (h : parseGlobs excludes = .error error) :
    ∃ e ∈ excludes, ∃ cause, parseGlob e = .error cause ∧ error = .badGlob e cause := by
  induction excludes with
  | nil => cases h
  | cons e rest ih =>
    unfold parseGlobs at h
    cases hparse : parseGlob e with
    | error cause =>
      rw [hparse] at h
      cases h
      exact ⟨e, List.mem_cons_self, cause, hparse, rfl⟩
    | ok g =>
      rw [hparse] at h
      cases hrest : parseGlobs rest with
      | ok more => simp [hrest, Except.map] at h
      | error cause =>
        simp only [hrest, Except.map, Except.error.injEq] at h
        obtain ⟨p, hp, hcause⟩ := ih (h ▸ hrest)
        exact ⟨p, List.mem_cons_of_mem e hp, hcause⟩

theorem compileGlobs_eq_ok {patterns : List Glob.Pattern} : compileGlobs excludes = .ok patterns ↔
    ∃ globs : List Glob, excludes.map parseGlob = globs.map .ok ∧
      Glob.checkNesting globs = .ok () ∧ patterns = globs.map Glob.pattern := by
  simp only [← parseGlobs_eq_ok]
  unfold compileGlobs
  cases parseGlobs excludes with
  | error cause => simp
  | ok globs => cases hnesting : Glob.checkNesting globs <;> simp [hnesting, eq_comm]

theorem compileGlobs_eq_error (h : compileGlobs excludes = .error error) :
    (∃ e ∈ excludes, ∃ cause, parseGlob e = .error cause ∧ error = .badGlob e cause) ∨
      ∃ cause, error = .tooDeep cause := by
  unfold compileGlobs at h
  split at h
  · next hparse =>
    cases h
    exact .inl (exists_of_parseGlobs_eq_error hparse)
  split at h
  · next cause _ =>
    cases h
    exact .inr ⟨cause, rfl⟩
  · cases h

/-- Excludes can be compiled if each is a glob and not nested too deep. -/
theorem exists_compileGlobs_iff : (∃ patterns, compileGlobs excludes = .ok patterns) ↔
    ∀ e ∈ excludes, ∃ g, parseGlob e = .ok g ∧ (g.method ≠ .comparison → g.isTooDeep = false) := by
  constructor
  · rintro ⟨patterns, hcompile⟩ e he
    obtain ⟨globs, hglobs, hnesting, -⟩ := compileGlobs_eq_ok.1 hcompile
    have hmem : parseGlob e ∈ globs.map .ok := hglobs ▸ List.mem_map_of_mem he
    obtain ⟨g, hg, hparse⟩ := List.mem_map.1 hmem
    exact ⟨g, hparse.symm, Glob.checkNesting_eq_ok.1 hnesting g hg⟩
  · intro hall
    cases hparse : parseGlobs excludes with
    | error error =>
      obtain ⟨e, he, cause, hcause, -⟩ := exists_of_parseGlobs_eq_error hparse
      obtain ⟨g, hg, -⟩ := hall e he
      rw [hcause] at hg
      cases hg
    | ok globs =>
      have hglobs := parseGlobs_eq_ok.1 hparse
      refine ⟨_, compileGlobs_eq_ok.2 ⟨globs, hglobs, Glob.checkNesting_eq_ok.2 ?_, rfl⟩⟩
      intro g hg
      have hmem : .ok g ∈ excludes.map parseGlob := hglobs ▸ List.mem_map_of_mem hg
      obtain ⟨e, he, hread⟩ := List.mem_map.1 hmem
      obtain ⟨g', hg', hshallow⟩ := hall e he
      obtain rfl := Except.ok.inj (hread.symm.trans hg')
      exact hshallow

/-! ### Settings that are valid -/

/-- A glob that can be used without the blanks at its ends. -/
structure IsUsable (e : Bytes) : Prop where
  escapes : losesEscape e = false
  shallow : ∀ g, parseGlob (Blank.trim e) = .ok g → g.method ≠ .comparison → g.isTooDeep = false

/-- A selection with the excludes of some settings, in their order: one pattern for each glob, and
one plain exclude for each of the others that is not blank. -/
structure Selects (s : Settings) (selection : Selection) : Prop where
  globs : ∃ globs : List Glob, selection.globs = globs.map Glob.pattern ∧
    (s.exclude.filter isGlob).map (fun e => parseGlob (Blank.trim e)) = globs.map .ok
  segments : selection.segments =
    (s.exclude.filter fun e => !isGlob e && !(Blank.trim e).isEmpty).map
      fun e => trimSlashes (Blank.trim e)

def selectionWith (s : Settings) (patterns : List Glob.Pattern) : Selection where
  extensions :=
    if s.extensions.isEmpty then defaultExtensions else s.extensions.map normalizeExtension
  segments := (s.exclude.filter fun e => !isGlob e && !(Blank.trim e).isEmpty).map
    fun e => trimSlashes (Blank.trim e)
  globs := patterns
  suffix := s.suffix.getD defaultSuffix
  style := s.style.getD .mark

theorem validate_of_resolve {selection : Selection} (h : s.resolve = .ok selection) :
    s.validate = .ok () := by
  unfold resolve at h
  split at h
  · cases h
  · next hvalid => exact hvalid

section Validated

variable (h : s.validate = .ok ())

include h

theorem parseGlob_trim_of_validate (he : e ∈ s.exclude) (hglob : isGlob e = true) :
    (parseGlob (Blank.trim e)).map (fun _ => ()) =
      if losesEscape e then .error .danglingEscape else .ok () := by
  obtain ⟨g, hg⟩ := checkExcludes_eq_ok.1 (checkExcludes_of_validate h) e he hglob
  exact parseGlob_trim hg

theorem resolve_of_validate : s.resolve =
    (compileGlobs ((s.exclude.filter isGlob).map Blank.trim)).map s.selectionWith := by
  unfold resolve
  rw [h]
  dsimp only
  rw [filter_excludes_isGlob, filter_excludes_plain, List.map_map]
  rfl

theorem isUsable_iff (he : e ∈ s.exclude) (hglob : isGlob e = true) : IsUsable e ↔
    ∃ g, parseGlob (Blank.trim e) = .ok g ∧ (g.method ≠ .comparison → g.isTooDeep = false) := by
  have htrim := parseGlob_trim_of_validate h he hglob
  constructor
  · rintro ⟨hescapes, hshallow⟩
    rw [hescapes] at htrim
    cases hparse : parseGlob (Blank.trim e) with
    | error cause =>
      rw [hparse] at htrim
      cases htrim
    | ok g => exact ⟨g, rfl, hshallow g hparse⟩
  · rintro ⟨g, hg, hshallow⟩
    refine ⟨?_, fun g' hg' => ?_⟩
    · rw [hg] at htrim
      split at htrim
      · cases htrim
      · next hkeeps => exact Bool.eq_false_iff.2 hkeeps
    · obtain rfl := Except.ok.inj (hg.symm.trans hg')
      exact hshallow

theorem resolve_iff : (∃ selection, s.resolve = .ok selection) ↔
    ∀ e ∈ s.exclude, isGlob e = true → IsUsable e := by
  have hcompiles : (∃ selection, s.resolve = .ok selection) ↔
      ∃ patterns, compileGlobs ((s.exclude.filter isGlob).map Blank.trim) = .ok patterns := by
    rw [resolve_of_validate h]
    cases compileGlobs ((s.exclude.filter isGlob).map Blank.trim) <;> simp [Except.map]
  rw [hcompiles, exists_compileGlobs_iff, List.forall_mem_map]
  simp only [List.mem_filter, and_imp]
  exact forall₃_congr fun e he hglob => (isUsable_iff h he hglob).symm

/-- What valid settings resolve to is theirs but for the globs, which are read. -/
theorem exists_of_resolve {selection : Selection} (hresolve : s.resolve = .ok selection) :
    ∃ patterns, compileGlobs ((s.exclude.filter isGlob).map Blank.trim) = .ok patterns ∧
      selection = s.selectionWith patterns := by
  rw [resolve_of_validate h] at hresolve
  cases hcompile : compileGlobs ((s.exclude.filter isGlob).map Blank.trim) with
  | error error => simp [hcompile, Except.map] at hresolve
  | ok patterns =>
    simp only [hcompile, Except.map, Except.ok.injEq] at hresolve
    exact ⟨patterns, rfl, hresolve.symm⟩

theorem selects_of_resolve {selection : Selection} (hresolve : s.resolve = .ok selection) :
    s.Selects selection := by
  obtain ⟨patterns, hcompile, rfl⟩ := exists_of_resolve h hresolve
  obtain ⟨globs, hglobs, -, rfl⟩ := compileGlobs_eq_ok.1 hcompile
  refine ⟨⟨globs, rfl, ?_⟩, rfl⟩
  rw [← hglobs, List.map_map]
  rfl

/-- What valid settings are refused for. -/
theorem resolve_eq_error (hresolve : s.resolve = .error error) :
    (∃ e ∈ s.exclude, isGlob e = true ∧ losesEscape e = true ∧
      error = .badGlob (Blank.trim e) .danglingEscape) ∨ ∃ cause, error = .tooDeep cause := by
  rw [resolve_of_validate h] at hresolve
  cases hcompile : compileGlobs ((s.exclude.filter isGlob).map Blank.trim) with
  | ok patterns => simp [hcompile, Except.map] at hresolve
  | error error =>
    simp only [hcompile, Except.map, Except.error.injEq] at hresolve
    subst hresolve
    refine (compileGlobs_eq_error hcompile).imp_left ?_
    rintro ⟨p, hp, cause, hcause, rfl⟩
    obtain ⟨e, hmem, rfl⟩ := List.mem_map.1 hp
    obtain ⟨he, hglob⟩ := List.mem_filter.1 hmem
    have htrim := parseGlob_trim_of_validate h he hglob
    rw [hcause] at htrim
    split at htrim
    · next hloses =>
      cases htrim
      exact ⟨e, he, hglob, hloses, rfl⟩
    · cases htrim

end Validated

/-! ### Settings that are loaded -/

theorem withOverrides_default (s : Settings) : s.withOverrides {} = s := by
  obtain ⟨extensions, exclude, suffix, style⟩ := s
  simp [withOverrides]

section Load

variable {t t' : Tree} {root file : Path} {given : Option Path}

/-- A file of settings is loaded if it is a text that holds some and if these pass the checks. -/
theorem run_load_eq_ok :
    (load file : StateM Tree (Except Failure Settings)).run t = (.ok s, t') ↔
      (s.validate = .ok () ∧ t' = t) ∧
        ∃ text, t.readText file = .ok text ∧ read? text = some s := by
  unfold load
  rw [Tree.run_bind, Tree.run_readText]
  constructor
  · intro hload
    cases htext : t.readText file with
    | error e => rw [htext] at hload; cases hload
    | ok text =>
      simp only [htext] at hload
      cases hread : read? text with
      | none => simp only [hread] at hload; cases hload
      | some s' =>
        simp only [hread] at hload
        cases hvalid : s'.validate with
        | error e => simp only [hvalid] at hload; cases hload
        | ok _ =>
          simp only [hvalid] at hload
          cases hload
          exact ⟨⟨hvalid, rfl⟩, text, rfl, hread⟩
  · rintro ⟨⟨hvalid, rfl⟩, text, htext, hread⟩
    simp only [htext, hread, hvalid]
    rfl

/-- Without overrides, what is loaded is refused later for what it cannot be resolved for. -/
theorem run_loadSelection
    (hfile : (chooseFile root given : StateM Tree (Option Path)).run t = (some file, t))
    (hload : (load file : StateM Tree (Except Failure Settings)).run t = (.ok s, t')) :
    (loadSelection root given {} :
        StateM Tree (Except Failure (Selection × Option Path))).run t =
      ((s.resolve.mapError .invalid).map fun selection => (selection, some file), t') := by
  unfold loadSelection
  rw [Tree.run_bind, hfile]
  dsimp only
  rw [Tree.run_bind, hload]
  dsimp only
  rw [withOverrides_default]
  cases s.resolve <;> rfl

end Load

/-- Settings that are loaded have passed the checks. Settings that pass them can be used, with all
of their excludes, just if no glob among them loses what its last backslash takes with the blanks at
its end and none is nested too deep. -/
theorem validate_then_resolve (s : Settings) :
    (∀ (t t' : Tree) (root file : Path) (given : Option Path),
      (chooseFile root given : StateM Tree (Option Path)).run t = (some file, t) →
      (load file : StateM Tree (Except Failure Settings)).run t = (.ok s, t') →
      s.validate = .ok () ∧
        (loadSelection root given {} :
          StateM Tree (Except Failure (Selection × Option Path))).run t =
        ((s.resolve.mapError .invalid).map fun selection => (selection, some file), t')) ∧
    (s.validate = .ok () →
      ((∃ selection, s.resolve = .ok selection) ↔
        ∀ e ∈ s.exclude, isGlob e = true → IsUsable e) ∧
      (∀ selection, s.resolve = .ok selection → s.Selects selection) ∧
      ∀ error, s.resolve = .error error →
        (∃ e ∈ s.exclude, isGlob e = true ∧ losesEscape e = true ∧
          error = .badGlob (Blank.trim e) .danglingEscape) ∨ ∃ cause, error = .tooDeep cause) :=
  ⟨fun _ _ _ _ _ hfile hload => ⟨(run_load_eq_ok.1 hload).1.1, run_loadSelection hfile hload⟩,
    fun h => ⟨resolve_iff h, fun _ => selects_of_resolve h, fun _ => resolve_eq_error h⟩⟩

def paddedTree : Tree :=
  ⟨[([utf8 "s.json"], .file (utf8 "\x7b\"exclude\": [\" [ab]?c \", \"vendor/ \", \" \"]\x7d"))]⟩

def paddedSettings : Settings := { exclude := [utf8 " [ab]?c ", utf8 "vendor/ ", utf8 " "] }

theorem validate_then_resolve_paddedTree : ∃ selection,
    (loadSelection ⟨utf8 "."⟩ (some ⟨utf8 "s.json"⟩) {} :
        StateM Tree (Except Failure (Selection × Option Path))).run paddedTree =
      (.ok (selection, some ⟨utf8 "s.json"⟩), paddedTree) ∧
    paddedSettings.Selects selection ∧ selection.segments = [utf8 "vendor"] := by
  have hload : (load ⟨utf8 "s.json"⟩ : StateM Tree (Except Failure Settings)).run paddedTree =
      (.ok paddedSettings, paddedTree) :=
    run_load_eq_ok.2 ⟨⟨by decide, rfl⟩, _, rfl, by decide +kernel⟩
  obtain ⟨hloaded, hresolved⟩ := validate_then_resolve paddedSettings
  obtain ⟨hvalid, hrun⟩ := hloaded paddedTree paddedTree ⟨utf8 "."⟩ ⟨utf8 "s.json"⟩
    (some ⟨utf8 "s.json"⟩) rfl hload
  obtain ⟨hiff, hselects, -⟩ := hresolved hvalid
  obtain ⟨selection, hresolve⟩ := hiff.2 fun e he hglob => by
    have hfirst : e = utf8 " [ab]?c " := by
      simp only [paddedSettings, List.mem_cons, List.not_mem_nil, or_false] at he
      rcases he with rfl | rfl | rfl
      · rfl
      · exact absurd hglob (by decide)
      · exact absurd hglob (by decide)
    subst hfirst
    refine ⟨by decide, fun g hg hmethod => ?_⟩
    have hparse : parseGlob (Blank.trim (utf8 " [ab]?c ")) =
        .ok ⟨[.other (.oneIn ⟨false, [(97, 97), (98, 98)]⟩), .other .any, .char 'c']⟩ := by decide
    obtain rfl := Except.ok.inj (hparse.symm.trans hg)
    decide
  have hsegments := (hselects selection hresolve).segments
  refine ⟨selection, ?_, hselects selection hresolve, hsegments.trans (by decide)⟩
  rw [hrun, hresolve]
  rfl

def escapedBlankTree : Tree :=
  ⟨[([utf8 "s.json"], .file (utf8 "\x7b\"exclude\": [\"*\\\\ \"]\x7d"))]⟩

def escapedBlank : Settings := { exclude := [utf8 "*\\ "] }

theorem resolve_escapedBlank :
    escapedBlank.validate = .ok () ∧
    escapedBlank.resolve = .error (.badGlob (utf8 "*\\") .danglingEscape) ∧
    (load ⟨utf8 "s.json"⟩ : StateM Tree (Except Failure Settings)).run escapedBlankTree =
      (.ok escapedBlank, escapedBlankTree) ∧
    (loadSelection ⟨utf8 "."⟩ (some ⟨utf8 "s.json"⟩) {} :
        StateM Tree (Except Failure (Selection × Option Path))).run escapedBlankTree =
      (.error (.invalid (.badGlob (utf8 "*\\") .danglingEscape)), escapedBlankTree) := by
  have hload : (load ⟨utf8 "s.json"⟩ : StateM Tree (Except Failure Settings)).run
      escapedBlankTree = (.ok escapedBlank, escapedBlankTree) :=
    run_load_eq_ok.2 ⟨⟨by decide, rfl⟩, _, rfl, by decide +kernel⟩
  have hresolve : escapedBlank.resolve = .error (.badGlob (utf8 "*\\") .danglingEscape) := by decide
  refine ⟨by decide, hresolve, hload, ?_⟩
  rw [run_loadSelection rfl hload, hresolve]
  rfl

end Settings

end ExplicitNull
