import Mathlib.Data.List.DropRight
import ExplicitNull.Proofs.ValidatedSettings

/-!
The files that settings select by their extensions. An extension is given with or without blanks
around it and dots in front, and in any case; a file has what follows the last dot of its name. An
extension without a dot or a slash in it selects all its files. One with a dot in it is what no file
has, so its files are selected just if what follows its last dot is asked for as well.
-/
namespace ExplicitNull

/-- Letter case concerns letters alone. -/
theorem Ascii.toLower_eq_iff {b c : UInt8} (hc : isAlpha c = false) : toLower b = c ↔ b = c := by
  have hletters : byte 'A' = 65 ∧ byte 'Z' = 90 ∧ byte 'a' = 97 ∧ byte 'z' = 122 := by decide
  grind [toLower, isAlpha, isUpper, isLower]

namespace Bytes

theorem mem_toLower {c : UInt8} (hc : Ascii.isAlpha c = false) {bs : Bytes} :
    c ∈ toLower bs ↔ c ∈ bs := by
  unfold toLower
  simp [Ascii.toLower_eq_iff hc]

def afterDots (bs : Bytes) : Bytes := bs.rtakeWhile (· != byte '.')

theorem dot_notMem_afterDots (bs : Bytes) : byte '.' ∉ afterDots bs := fun h => by
  simpa using List.mem_rtakeWhile_imp h

theorem afterDots_of_notMem {bs : Bytes} (h : byte '.' ∉ bs) : afterDots bs = bs := by
  refine List.rtakeWhile_eq_self_iff.2 fun b hb => bne_iff_ne.2 ?_
  rintro rfl
  exact h hb

theorem afterDots_append (a b : Bytes) : afterDots (a ++ byte '.' :: b) = afterDots b := by
  unfold afterDots List.rtakeWhile
  rw [List.reverse_append, List.reverse_cons, List.append_assoc, List.takeWhile_append]
  split
  · next hall =>
    have hb : b.reverse.takeWhile (· != byte '.') = b.reverse :=
      (List.takeWhile_prefix _).eq_of_length hall
    simp [hb]
  · rfl

theorem afterDots_toLower (bs : Bytes) : afterDots (toLower bs) = toLower (afterDots bs) := by
  have hdot : (fun b => Ascii.toLower b != byte '.') = fun b => b != byte '.' := by
    funext b
    rw [Bool.eq_iff_iff, bne_iff_ne, bne_iff_ne, Ne, Ascii.toLower_eq_iff (by decide)]
  unfold afterDots List.rtakeWhile toLower
  rw [← List.map_reverse, List.takeWhile_map, List.map_reverse]
  exact congrArg _ (congrArg _ (congrArg₂ _ hdot rfl))

end Bytes

namespace Path

variable {name directory stem x y : Bytes} {p : Path}

theorem extensionOf?_eq (name : Bytes) : extensionOf? name =
    if (Bytes.afterDots name).length + 1 < name.length then some (Bytes.afterDots name) else none :=
  rfl

theorem extensionOf?_append (hstem : stem ≠ []) (y : Bytes) :
    extensionOf? (stem ++ byte '.' :: y) = some (Bytes.afterDots y) := by
  have hpos : 0 < stem.length := List.length_pos_iff.2 hstem
  have hle : (Bytes.afterDots y).length ≤ y.length := (List.rtakeWhile_suffix _ _).length_le
  rw [extensionOf?_eq, Bytes.afterDots_append, if_pos]
  simp only [List.length_append, List.length_cons]
  omega

/-- A file name has an extension if there is a stem before its last dot. -/
theorem extensionOf?_eq_some : extensionOf? name = some x ↔
    ∃ stem, stem ≠ [] ∧ byte '.' ∉ x ∧ name = stem ++ byte '.' :: x := by
  constructor
  · intro h
    rw [extensionOf?_eq] at h
    split at h
    · next hlong =>
      cases h
      have hsplit : name.rdropWhile (· != byte '.') ++ Bytes.afterDots name = name :=
        List.rdropWhile_append_rtakeWhile
      have hlength := congrArg List.length hsplit
      rw [List.length_append] at hlength
      have hfront : name.rdropWhile (· != byte '.') ≠ [] := by
        intro hnil
        rw [hnil, List.length_nil] at hlength
        omega
      have hlast : (name.rdropWhile (· != byte '.')).getLast hfront = byte '.' := by
        simpa using List.rdropWhile_last_not _ name hfront
      have hconcat := List.dropLast_concat_getLast hfront
      rw [hlast] at hconcat
      rw [← hconcat, List.append_assoc, List.singleton_append] at hsplit
      refine ⟨_, ?_, Bytes.dot_notMem_afterDots name, hsplit.symm⟩
      intro hnil
      rw [← hconcat, hnil] at hlength
      simp only [List.nil_append, List.length_singleton] at hlength
      omega
    · cases h
  · rintro ⟨stem, hstem, hx, rfl⟩
    rw [extensionOf?_append hstem, Bytes.afterDots_of_notMem hx]

theorem extension?_eq_some : p.extension? = some x ↔
    ∃ stem, stem ≠ [] ∧ byte '.' ∉ x ∧ p.fileName? = some (stem ++ byte '.' :: x) := by
  rw [extension?, Option.bind_eq_some_iff]
  constructor
  · rintro ⟨name, hname, hx⟩
    obtain ⟨stem, hstem, hdot, rfl⟩ := extensionOf?_eq_some.1 hx
    exact ⟨stem, hstem, hdot, hname⟩
  · rintro ⟨stem, hstem, hdot, hname⟩
    exact ⟨_, hname, extensionOf?_eq_some.2 ⟨stem, hstem, hdot, rfl⟩⟩

theorem fileName?_append (hdirectory : directory = [] ∨ directory.getLast? = some (byte '/'))
    (h : IsName name) : fileName? ⟨directory ++ name⟩ = some name := by
  rcases hdirectory with rfl | hslash
  · have hinner : inner? name = some (.name name) := by
      simp [inner?, h.nonempty, h.not_here, h.not_parent]
    have hhead : name.head? ≠ some (byte '/') := fun hhead =>
      h.no_slash (List.mem_of_mem_head? hhead)
    unfold fileName? components
    simp [Bytes.splitOn_of_notMem h.no_slash, hinner, hhead, h.not_here]
  · have hne : directory ≠ [] := by
      rintro rfl
      cases hslash
    have hjoin : (⟨directory ++ name⟩ : Path) = join ⟨directory⟩ name := by
      simp [join, hslash]
    rw [hjoin, fileName?_join hne h]

theorem isName_dotted (hstem : stem ≠ []) (hy : y ≠ []) (hstem' : byte '/' ∉ stem)
    (hy' : byte '/' ∉ y) : IsName (stem ++ byte '.' :: y) := by
  have hlong : 2 < (stem ++ byte '.' :: y).length := by
    have hpos : 0 < stem.length := List.length_pos_iff.2 hstem
    have hpos' : 0 < y.length := List.length_pos_iff.2 hy
    simp only [List.length_append, List.length_cons]
    omega
  refine ⟨by simp, ?_, fun heq => ?_, fun heq => ?_⟩
  · have hdot : byte '/' ≠ byte '.' := by decide
    simp [hstem', hy', hdot]
  · rw [heq] at hlong
    exact absurd hlong (by decide)
  · rw [heq] at hlong
    exact absurd hlong (by decide)

/-- A path that ends in a stem, a dot and a text, the text in any case. -/
def Bears (p : Path) (x : Bytes) : Prop :=
  ∃ directory stem y : Bytes, (directory = [] ∨ directory.getLast? = some (byte '/')) ∧
    stem ≠ [] ∧ byte '/' ∉ stem ∧ Bytes.eqIgnoringCase y x = true ∧
    p = ⟨directory ++ (stem ++ byte '.' :: y)⟩

/-- Of a text at its end a path has what follows the last dot for its extension. -/
theorem Bears.extension? (h : p.Bears x) (hx : x ≠ []) (hslash : byte '/' ∉ x) :
    p.extension?.map Bytes.toLower = some (Bytes.afterDots (Bytes.toLower x)) := by
  obtain ⟨directory, stem, y, hdirectory, hstem, hstem', hcase, rfl⟩ := h
  have hlower : Bytes.toLower y = Bytes.toLower x := eq_of_beq hcase
  have hy : y ≠ [] := by
    rintro rfl
    exact hx (List.map_eq_nil_iff.1 hlower.symm)
  have hy' : byte '/' ∉ y := by
    rwa [← Bytes.mem_toLower (by decide), hlower, Bytes.mem_toLower (by decide)]
  rw [Path.extension?, fileName?_append hdirectory (isName_dotted hstem hy hstem' hy'),
    Option.bind_some, extensionOf?_append hstem, Option.map_some, ← Bytes.afterDots_toLower,
    hlower]

end Path

namespace Settings

variable {s : Settings} {selection : Selection} {e x : Bytes} {p : Path}

/-- An extension without the blanks around it and the dots in front. -/
def bareExtension (e : Bytes) : Bytes := (Blank.trim e).dropWhile (· == byte '.')

theorem normalizeExtension_eq (e : Bytes) :
    normalizeExtension e = Bytes.toLower (bareExtension e) := rfl

/-- An entry that is an extension with blanks on both sides and dots in front of it. -/
structure Wraps (e x : Bytes) : Prop where
  nonempty : x ≠ []
  head : ∀ c ∈ x.head?, Blank.IsVisible c ∧ c ≠ byte '.'
  last : ∀ c ∈ x.getLast?, Blank.IsVisible c
  written : ∃ before dots behind, Blank.AllBlank before ∧ (∀ b ∈ dots, b = byte '.') ∧
    Blank.AllBlank behind ∧ e = before ++ ((dots ++ x) ++ behind)

theorem Wraps.bareExtension (h : Wraps e x) : bareExtension e = x := by
  obtain ⟨hne, hhead, hlast, before, dots, behind, hbefore, hdots, hbehind, rfl⟩ := h
  have hvisible : ∀ c ∈ (dots ++ x).head?, Blank.IsVisible c := by
    cases dots with
    | nil => exact fun c hc => (hhead c hc).1
    | cons d dots =>
      intro c hc
      cases hc
      rw [hdots d List.mem_cons_self]
      decide
  have hvisible' : ∀ c ∈ (dots ++ x).getLast?, Blank.IsVisible c := by
    rwa [List.getLast?_append_of_ne_nil _ hne]
  have hdropped : (dots ++ x).dropWhile (· == byte '.') = x.dropWhile (· == byte '.') :=
    List.dropWhile_append_of_pos fun b hb => beq_iff_eq.2 (hdots b hb)
  obtain ⟨c, rest, rfl⟩ := List.exists_cons_of_ne_nil hne
  rw [Settings.bareExtension, Blank.trim_eq hbefore hbehind hvisible hvisible' (by simp), hdropped,
    List.dropWhile_cons_of_neg (by simpa using (hhead c rfl).2)]

/-- The extensions that are asked for: those given or, without any, the default. -/
def askedExtensions (s : Settings) : List Bytes :=
  if s.extensions.isEmpty then defaultExtensions else s.extensions

theorem askedExtensions_of_mem (he : e ∈ s.extensions) : s.askedExtensions = s.extensions := by
  have hne : s.extensions ≠ [] := List.ne_nil_of_mem he
  simp [askedExtensions, hne]

theorem extensions_of_resolve (h : s.resolve = .ok selection) :
    selection.extensions = s.askedExtensions.map normalizeExtension := by
  have hdefault : defaultExtensions.map normalizeExtension = defaultExtensions := by decide
  obtain ⟨patterns, -, rfl⟩ := exists_of_resolve (validate_of_resolve h) h
  unfold askedExtensions selectionWith
  dsimp only
  split
  · exact hdefault.symm
  · rfl

theorem bareExtension_ne_nil (h : s.validate = .ok ()) (he : e ∈ s.extensions) :
    bareExtension e ≠ [] := by
  intro hnil
  have hempty : s.extensions.any fun e => (normalizeExtension e).isEmpty := by
    refine List.any_eq_true.2 ⟨e, he, ?_⟩
    rw [normalizeExtension_eq, hnil]
    rfl
  unfold validate at h
  rw [if_pos hempty] at h
  split at h <;> cases h

theorem hasScannedExtension_of_resolve (h : s.resolve = .ok selection) (p : Path) :
    selection.hasScannedExtension p = true ↔ ∃ e ∈ s.askedExtensions,
      p.extension?.map Bytes.toLower = some (normalizeExtension e) := by
  unfold Selection.hasScannedExtension
  rw [extensions_of_resolve h]
  cases p.extension? with
  | none => simp
  | some x => simp [eq_comm]

/-- Settings select the files of every extension in which there is no slash and no dot, and of no
other: a path is selected just if its file name is a stem, a dot and such an extension, in any case.
The files of an extension with a dot in it are selected just if what follows its last dot is asked
for as well. Blanks around an extension and dots in front of it make no difference. -/
theorem selects_extensions (s : Settings) (selection : Selection) (h : s.resolve = .ok selection) :
    (∀ e x, Wraps e x → bareExtension e = x) ∧
    (∀ e ∈ s.extensions, byte '/' ∉ bareExtension e → ∀ p : Path, p.Bears (bareExtension e) →
      (byte '.' ∉ bareExtension e → selection.hasScannedExtension p = true) ∧
      (selection.hasScannedExtension p = true ↔
        ∃ e' ∈ s.extensions, normalizeExtension e' = Bytes.afterDots (normalizeExtension e))) ∧
    (∀ p : Path, selection.hasScannedExtension p = true ↔
      ∃ e ∈ s.askedExtensions, ∃ stem y, stem ≠ [] ∧ byte '.' ∉ y ∧
        Bytes.eqIgnoringCase y (bareExtension e) = true ∧
        p.fileName? = some (stem ++ byte '.' :: y)) := by
  refine ⟨fun e x hwraps => hwraps.bareExtension, fun e he hslash p hp => ?_, fun p => ?_⟩
  · have hne := bareExtension_ne_nil (validate_of_resolve h) he
    have hselected : selection.hasScannedExtension p = true ↔
        ∃ e' ∈ s.extensions, normalizeExtension e' = Bytes.afterDots (normalizeExtension e) := by
      rw [hasScannedExtension_of_resolve h, askedExtensions_of_mem he, hp.extension? hne hslash]
      simp only [Option.some.injEq, eq_comm]
      rfl
    refine ⟨fun hdot => hselected.2 ⟨e, he, ?_⟩, hselected⟩
    have hdot' : byte '.' ∉ normalizeExtension e := by
      rwa [normalizeExtension_eq, Bytes.mem_toLower (by decide)]
    exact (Bytes.afterDots_of_notMem hdot').symm
  · rw [hasScannedExtension_of_resolve h]
    refine exists_congr fun e => and_congr_right fun _ => ?_
    simp only [Option.map_eq_some_iff, Path.extension?_eq_some]
    constructor
    · rintro ⟨y, ⟨stem, hstem, hdot, hname⟩, hlower⟩
      exact ⟨stem, y, hstem, hdot, beq_iff_eq.2 hlower, hname⟩
    · rintro ⟨stem, y, hstem, hdot, hcase, hname⟩
      exact ⟨y, ⟨stem, hstem, hdot, hname⟩, eq_of_beq hcase⟩

def mixedSettings : Settings := { extensions := [utf8 " .Inc ", utf8 "blade.php", utf8 "..PHP"] }

def mixedSelection : Selection where
  extensions := [utf8 "inc", utf8 "blade.php", utf8 "php"]
  segments := []
  globs := []
  suffix := defaultSuffix
  style := .mark

theorem selects_extensions_mixedSettings : mixedSettings.resolve = .ok mixedSelection ∧
    mixedSelection.hasScannedExtension ⟨utf8 "src/a.b.INC"⟩ = true ∧
    mixedSelection.hasScannedExtension ⟨utf8 "home.blade.php"⟩ = true := by
  have hresolve : mixedSettings.resolve = .ok mixedSelection := by decide
  obtain ⟨-, hselects, -⟩ := selects_extensions mixedSettings mixedSelection hresolve
  have hinc := hselects (utf8 " .Inc ") (by decide) (by decide) ⟨utf8 "src/a.b.INC"⟩
    ⟨utf8 "src/", utf8 "a.b", utf8 "INC", by decide, by decide, by decide, by decide, by decide⟩
  have hblade := hselects (utf8 "blade.php") (by decide) (by decide) ⟨utf8 "home.blade.php"⟩
    ⟨[], utf8 "home", utf8 "blade.php", by decide, by decide, by decide, by decide, by decide⟩
  exact ⟨hresolve, hinc.1 (by decide), hblade.2.2 ⟨utf8 "..PHP", by decide, by decide⟩⟩

def dottedSettings : Settings := { extensions := [utf8 "blade.php", utf8 "a/b"] }

def dottedSelection : Selection := { mixedSelection with extensions := dottedSettings.extensions }

theorem hasScannedExtension_dottedSettings : dottedSettings.resolve = .ok dottedSelection ∧
    (utf8 "blade.php" ∈ dottedSettings.extensions ∧
      Path.Bears ⟨utf8 "views/home.blade.php"⟩ (bareExtension (utf8 "blade.php")) ∧
      dottedSelection.hasScannedExtension ⟨utf8 "views/home.blade.php"⟩ = false) ∧
    utf8 "a/b" ∈ dottedSettings.extensions ∧
      Path.Bears ⟨utf8 "x.a/b"⟩ (bareExtension (utf8 "a/b")) ∧
      dottedSelection.hasScannedExtension ⟨utf8 "x.a/b"⟩ = false := by
  refine ⟨by decide, ⟨by decide, ?_, by decide⟩, by decide, ?_, by decide⟩
  · exact ⟨utf8 "views/", utf8 "home", utf8 "blade.php", by decide, by decide, by decide,
      by decide, by decide⟩
  · exact ⟨[], utf8 "x", utf8 "a/b", by decide, by decide, by decide, by decide, by decide⟩

end Settings

end ExplicitNull
