import ExplicitNull.Change
import ExplicitNull.FileSystem.Tree
import ExplicitNull.Restore

/-!
Paths of files below a root. Joining names to a root adds just these names to its own, however
the root is spelled, and the last one is the file name. A suffix behind a path goes to its last
name, and taking it off again gives back the path.
-/
namespace ExplicitNull

namespace Bytes

theorem splitOn_ne_nil (sep : UInt8) (bs : Bytes) : splitOn sep bs ≠ [] := by
  induction bs with
  | nil => simp [splitOn]
  | cons b rest ih =>
    unfold splitOn
    split
    · simp
    · split <;> simp

theorem splitOn_append (sep : UInt8) (a b : Bytes) :
    splitOn sep (a ++ sep :: b) = splitOn sep a ++ splitOn sep b := by
  induction a with
  | nil => simp [splitOn]
  | cons c a ih =>
    by_cases hc : c = sep
    · simp [splitOn, hc, ih]
    · obtain ⟨piece, pieces, ha⟩ := List.exists_cons_of_ne_nil (splitOn_ne_nil sep a)
      simp [splitOn, hc, ih, ha]

theorem splitOn_of_notMem {sep : UInt8} {a : Bytes} (h : sep ∉ a) : splitOn sep a = [a] := by
  induction a with
  | nil => rfl
  | cons b a ih =>
    have hb : b ≠ sep := fun hb => h (by simp [hb])
    have ha : sep ∉ a := fun ha => h (List.mem_cons_of_mem b ha)
    simp [splitOn, hb, ih ha]

theorem dropSuffix?_append (a part : Bytes) : dropSuffix? part (a ++ part) = some a := by
  have hsuffix : part.isSuffixOf (a ++ part) = true := by simp
  simp [dropSuffix?, hsuffix]

end Bytes

namespace Utf8

/-- No place in a character asks for an ASCII byte. -/
def Beyond (owed : List Span) : Prop := ∀ s ∈ owed, 0x80 ≤ s.low

theorem beyond_owedAfter {b : UInt8} {owed : List Span} (h : owedAfter b = some owed) :
    Beyond owed := by
  unfold owedAfter at h
  unfold Beyond
  repeat' split at h
  all_goals cases h <;> decide

variable {owed : List Span} {a b : Bytes}

/-- Behind whole characters a reader owes nothing. -/
theorem validFrom_append (h : validFrom owed a = true) (b : Bytes) :
    validFrom owed (a ++ b) = isValid b := by
  induction a generalizing owed with
  | nil =>
    obtain rfl : owed = [] := by simpa [validFrom] using h
    rfl
  | cons c a ih =>
    cases owed with
    | nil =>
      rw [List.cons_append, validFrom]
      rw [validFrom] at h
      cases hc : owedAfter c with
      | none => simp [hc] at h
      | some owed =>
        rw [hc] at h
        exact ih h
    | cons s owed =>
      simp only [validFrom, Bool.and_eq_true] at h
      rw [List.cons_append, validFrom, h.1, Bool.true_and, ih h.2]

theorem isValid_append (ha : isValid a = true) (hb : isValid b = true) :
    isValid (a ++ b) = true := by
  rwa [isValid, validFrom_append ha]

/-- Before an ASCII byte all characters are whole. -/
theorem validFrom_of_ascii (howed : Beyond owed) {d : UInt8} (hd : d < 0x80)
    (h : validFrom owed (a ++ d :: b) = true) : validFrom owed a = true := by
  induction a generalizing owed with
  | nil =>
    cases owed with
    | nil => rfl
    | cons s owed =>
      have hlow : 0x80 ≤ s.low := howed s (List.mem_cons_self ..)
      simp only [List.nil_append, validFrom, Span.holds, Bool.and_eq_true, decide_eq_true_eq] at h
      exact absurd hd (UInt8.not_lt.2 (UInt8.le_trans hlow h.1.1))
  | cons c a ih =>
    cases owed with
    | nil =>
      rw [List.cons_append, validFrom] at h
      rw [validFrom]
      cases hc : owedAfter c with
      | none => simp [hc] at h
      | some owed =>
        rw [hc] at h
        exact ih (beyond_owedAfter hc) h
    | cons s owed =>
      simp only [List.cons_append, validFrom, Bool.and_eq_true] at h ⊢
      exact ⟨h.1, ih (fun s' hs' => howed s' (List.mem_cons_of_mem s hs')) h.2⟩

/-- What stands behind a slash in a text is text. -/
theorem isValid_of_slash {a rest : Bytes} (h : isValid (a ++ byte '/' :: rest) = true) :
    isValid rest = true := by
  have hslash : byte '/' < 0x80 := by decide
  have ha := validFrom_of_ascii (by simp [Beyond]) hslash h
  rwa [isValid, validFrom_append ha] at h

end Utf8

namespace Path

structure IsName (name : Bytes) : Prop where
  nonempty : name ≠ []
  no_slash : byte '/' ∉ name
  not_here : name ≠ utf8 "."
  not_parent : name ≠ utf8 ".."

theorem IsName.append {name suffix : Bytes} (h : IsName name) (hsuffix : suffix ≠ [])
    (hslash : byte '/' ∉ suffix) : IsName (name ++ suffix) where
  nonempty := by simp [hsuffix]
  no_slash := by simp [h.no_slash, hslash]
  not_here heq := by
    have hlength : (name ++ suffix).length = 1 := by rw [heq]; rfl
    have hname : 0 < name.length := List.length_pos_iff.2 h.nonempty
    have hpos : 0 < suffix.length := List.length_pos_iff.2 hsuffix
    simp only [List.length_append] at hlength
    omega
  not_parent heq := by
    obtain ⟨b, rest, rfl⟩ := List.exists_cons_of_ne_nil h.nonempty
    have hdots : utf8 ".." = [byte '.', byte '.'] := by decide
    have hdot : utf8 "." = [byte '.'] := by decide
    rw [hdots, List.cons_append, List.cons.injEq] at heq
    have hlength : (rest ++ suffix).length = 1 := by rw [heq.2]; rfl
    have hpos : 0 < suffix.length := List.length_pos_iff.2 hsuffix
    simp only [List.length_append] at hlength
    have hrest : rest = [] := List.length_eq_zero_iff.1 (by omega)
    exact h.not_here (by rw [hdot, heq.1, hrest])

theorem names_slash (a b : Bytes) : names ⟨a ++ byte '/' :: b⟩ = names ⟨a⟩ ++ names ⟨b⟩ := by
  simp [names, Bytes.splitOn_append]

theorem names_singleton {name : Bytes} (hname : name ≠ []) (hslash : byte '/' ∉ name) :
    names ⟨name⟩ = [name] := by
  simp [names, Bytes.splitOn_of_notMem hslash, hname]

/-- A joined name stands behind a slash, and what is before the slash has the names of the path. -/
theorem exists_join {p : Path} (hp : p.raw ≠ []) (name : Bytes) :
    ∃ a, (p.join name).raw = a ++ byte '/' :: name ∧ names ⟨a⟩ = p.names := by
  obtain ⟨a, b, hraw⟩ := (List.eq_nil_or_concat p.raw).resolve_left hp
  by_cases hb : b = byte '/'
  · refine ⟨a, by simp [join, hraw, hb], ?_⟩
    have hp' : p = ⟨a ++ byte '/' :: []⟩ := by rw [← hb, ← List.concat_eq_append, ← hraw]
    rw [hp', names_slash a []]
    simp [names, Bytes.splitOn]
  · exact ⟨p.raw, by simp [join, hraw, hb], rfl⟩

variable {p : Path} {name : Bytes}

theorem join_ne_nil (p : Path) (hname : name ≠ []) : (p.join name).raw ≠ [] := by
  simp [join, hname]

theorem names_join (hp : p.raw ≠ []) (hname : name ≠ []) (hslash : byte '/' ∉ name) :
    (p.join name).names = p.names ++ [name] := by
  obtain ⟨a, hraw, ha⟩ := exists_join hp name
  have hjoin : p.join name = ⟨a ++ byte '/' :: name⟩ := by rw [← hraw]
  rw [hjoin, names_slash, ha, names_singleton hname hslash]

theorem endsInSlash_join (p : Path) (hname : name ≠ []) (hslash : byte '/' ∉ name) :
    (p.join name).endsInSlash = false := by
  obtain ⟨start, b, hconcat⟩ := (List.eq_nil_or_concat name).resolve_left hname
  have hb : b ≠ byte '/' := fun hb => hslash (by simp [hconcat, hb])
  simp [endsInSlash, join, hconcat, hb]

theorem fileName?_join (hp : p.raw ≠ []) (h : IsName name) : (p.join name).fileName? = some name := by
  obtain ⟨a, hraw, -⟩ := exists_join hp name
  have hinner : inner? name = some (.name name) := by
    simp [inner?, h.nonempty, h.not_here, h.not_parent]
  unfold fileName? components
  simp [hraw, Bytes.splitOn_append, Bytes.splitOn_of_notMem h.no_slash, hinner]

/-- A path that can be used. -/
theorem fault?_eq_none : p.fault? = none ↔ 0 ∉ p.raw ∧ p.raw ≠ [] ∧ p.raw.length < tooLong := by
  unfold fault?
  by_cases hzero : 0 ∈ p.raw
  · simp [hzero]
  by_cases hempty : p.raw = []
  · simp [hempty]
  by_cases hlong : tooLong ≤ p.raw.length
  · simp [hzero, hempty, hlong]
  · simp [hzero, hempty, hlong, Nat.not_le.1 hlong]

theorem length_lt_of_fault? (h : p.fault? = none) : p.raw.length < tooLong :=
  (fault?_eq_none.1 h).2.2

theorem zero_notMem_of_fault? (h : p.fault? = none) : 0 ∉ p.raw := (fault?_eq_none.1 h).1

theorem zero_notMem_join (hp : 0 ∉ p.raw) (hname : 0 ∉ name) : 0 ∉ (p.join name).raw := by
  have hslash : (0 : UInt8) ≠ byte '/' := by decide
  unfold join
  split <;> simp [hp, hname, hslash]

theorem append_join (p : Path) (name suffix : Bytes) :
    (p.join name).append suffix = p.join (name ++ suffix) := by
  simp [append, join]

variable {above : List Bytes}

theorem foldl_join_ne_nil (hp : p.raw ≠ []) (h : ∀ name ∈ above, IsName name) :
    (above.foldl join p).raw ≠ [] := by
  induction above generalizing p with
  | nil => exact hp
  | cons name above ih =>
    have hname : IsName name := h name (List.mem_cons_self ..)
    exact ih (join_ne_nil p hname.nonempty) fun n hn => h n (List.mem_cons_of_mem name hn)

theorem zero_notMem_foldl_join (hp : 0 ∉ p.raw) (h : ∀ name ∈ above, 0 ∉ name) :
    0 ∉ (above.foldl join p).raw := by
  induction above generalizing p with
  | nil => exact hp
  | cons name above ih =>
    exact ih (zero_notMem_join hp (h name (List.mem_cons_self ..))) fun n hn =>
      h n (List.mem_cons_of_mem name hn)

theorem names_foldl_join (hp : p.raw ≠ []) (h : ∀ name ∈ above, IsName name) :
    (above.foldl join p).names = p.names ++ above := by
  induction above generalizing p with
  | nil => simp
  | cons name above ih =>
    have hname : IsName name := h name (List.mem_cons_self ..)
    have habove : ∀ n ∈ above, IsName n := fun n hn => h n (List.mem_cons_of_mem name hn)
    rw [List.foldl_cons, ih (join_ne_nil p hname.nonempty) habove,
      names_join hp hname.nonempty hname.no_slash]
    simp

end Path

/-- A file below a directory: the names that lead to it from there, its own apart. -/
structure Spot where
  above : List Bytes
  name : Bytes
  deriving DecidableEq, Repr

namespace Spot

def path (root : Path) (x : Spot) : Path := (x.above.foldl Path.join root).join x.name

def location (here : Location) (x : Spot) : Location := here ++ x.above ++ [x.name]

def backup (suffix : Bytes) (x : Spot) : Spot := ⟨x.above, x.name ++ suffix⟩

/-- A spot whose path has its names; the last of them may be dots. -/
structure IsNamed (x : Spot) : Prop where
  above : ∀ name ∈ x.above, Path.IsName name
  nonempty : x.name ≠ []
  no_slash : byte '/' ∉ x.name

structure IsProper (x : Spot) : Prop where
  above : ∀ name ∈ x.above, Path.IsName name
  name : Path.IsName x.name

theorem IsProper.isNamed {x : Spot} (h : x.IsProper) : x.IsNamed :=
  ⟨h.above, h.name.nonempty, h.name.no_slash⟩

theorem IsNamed.isProper_or {x : Spot} (h : x.IsNamed) :
    x.IsProper ∨ x.name = utf8 "." ∨ x.name = utf8 ".." := by
  by_cases hhere : x.name = utf8 "."
  · exact .inr (.inl hhere)
  by_cases hparent : x.name = utf8 ".."
  · exact .inr (.inr hparent)
  · exact .inl ⟨h.above, h.nonempty, h.no_slash, hhere, hparent⟩

theorem IsProper.backup {x : Spot} (h : x.IsProper) {suffix : Bytes} (hsuffix : suffix ≠ [])
    (hslash : byte '/' ∉ suffix) : (x.backup suffix).IsProper :=
  ⟨h.above, h.name.append hsuffix hslash⟩

theorem path_backup (root : Path) (x : Spot) (suffix : Bytes) :
    Change.backupPath (x.path root) suffix = (x.backup suffix).path root :=
  Path.append_join ..

variable {root : Path} {x y : Spot}

theorem raw_path_backup (root : Path) (x : Spot) (suffix : Bytes) :
    ((x.backup suffix).path root).raw = (x.path root).raw ++ suffix := by
  rw [← path_backup]
  rfl

theorem path_ne_nil (root : Path) (h : x.IsNamed) : (x.path root).raw ≠ [] :=
  Path.join_ne_nil _ h.nonempty

theorem names_path (hroot : root.raw ≠ []) (h : x.IsNamed) :
    (x.path root).names = root.names ++ x.above ++ [x.name] := by
  rw [path, Path.names_join (Path.foldl_join_ne_nil hroot h.above) h.nonempty h.no_slash,
    Path.names_foldl_join hroot h.above]

theorem endsInSlash_path (root : Path) (h : x.IsNamed) : (x.path root).endsInSlash = false :=
  Path.endsInSlash_join _ h.nonempty h.no_slash

theorem steps_path (hroot : root.raw ≠ []) (h : x.IsNamed) :
    (x.path root).steps = root.names ++ x.above ++ [x.name] := by
  rw [Path.steps, names_path hroot h, endsInSlash_path root h]
  simp

theorem path_injective (hroot : root.raw ≠ []) (hx : x.IsNamed) (hy : y.IsNamed)
    (h : x.path root = y.path root) : x = y := by
  have hnames := congrArg Path.names h
  rw [names_path hroot hx, names_path hroot hy, List.append_assoc, List.append_assoc] at hnames
  obtain ⟨habove, hname⟩ := List.append_inj' (List.append_cancel_left hnames) rfl
  obtain ⟨a, n⟩ := x
  obtain ⟨b, k⟩ := y
  simp only [List.cons.injEq, and_true] at habove hname
  rw [habove, hname]

theorem location_injective {here : Location} (h : x.location here = y.location here) : x = y := by
  rw [location, location, List.append_assoc, List.append_assoc] at h
  obtain ⟨habove, hname⟩ := List.append_inj' (List.append_cancel_left h) rfl
  obtain ⟨a, n⟩ := x
  obtain ⟨b, k⟩ := y
  simp only [List.cons.injEq, and_true] at habove hname
  rw [habove, hname]

theorem location_ne_nil (here : Location) (x : Spot) : x.location here ≠ [] := by
  simp [location]

theorem backup_injective {suffix : Bytes} (h : x.backup suffix = y.backup suffix) : x = y := by
  obtain ⟨a, n⟩ := x
  obtain ⟨b, k⟩ := y
  simp only [backup, mk.injEq, List.append_cancel_right_eq] at h
  rw [h.1, h.2]

theorem backup_ne {suffix : Bytes} (h : suffix ≠ []) : x.backup suffix ≠ x := by
  intro heq
  apply h
  simpa [backup] using congrArg name heq

theorem fileName?_path (hroot : root.raw ≠ []) (h : x.IsProper) :
    (x.path root).fileName? = some x.name :=
  Path.fileName?_join (Path.foldl_join_ne_nil hroot h.above) h.name

theorem isBackup_path (hroot : root.raw ≠ []) (h : x.IsProper) (suffix : Bytes) :
    Discovery.isBackup suffix (x.path root) = true ↔
      Utf8.isValid x.name = true ∧ suffix.length < x.name.length ∧ suffix <:+ x.name := by
  rw [Discovery.isBackup, fileName?_path hroot h]
  simp [and_assoc]

/-- The name of a file with a path that is text is text. -/
theorem isValid_name (hroot : root.raw ≠ []) (h : x.IsProper)
    (htext : Utf8.isValid (x.path root).raw = true) : Utf8.isValid x.name = true := by
  obtain ⟨a, hraw, -⟩ := Path.exists_join (Path.foldl_join_ne_nil hroot h.above) x.name
  rw [path, hraw] at htext
  exact Utf8.isValid_of_slash htext

theorem suffix_backup (h : x.IsProper) (suffix : Bytes) :
    suffix.length < (x.backup suffix).name.length ∧ suffix <:+ (x.backup suffix).name := by
  have hname : 0 < x.name.length := List.length_pos_iff.2 h.name.nonempty
  refine ⟨?_, List.suffix_append ..⟩
  simp only [backup, List.length_append]
  omega

theorem isBackup_backup (hroot : root.raw ≠ []) (h : x.IsProper) {suffix : Bytes}
    (hsuffix : suffix ≠ []) (hslash : byte '/' ∉ suffix)
    (htext : Utf8.isValid ((x.backup suffix).path root).raw = true) :
    Discovery.isBackup suffix ((x.backup suffix).path root) = true := by
  have hproper := h.backup hsuffix hslash
  exact (isBackup_path hroot hproper suffix).2
    ⟨isValid_name hroot hproper htext, suffix_backup h suffix⟩

theorem homeOf?_backup (root : Path) (h : x.IsNamed) {suffix : Bytes}
    (htext : Utf8.isValid ((x.backup suffix).path root).raw = true) :
    Restore.homeOf? suffix ((x.backup suffix).path root) = some (x.path root) := by
  have hraw := raw_path_backup root x suffix
  obtain ⟨b, rest, hcons⟩ := List.exists_cons_of_ne_nil (path_ne_nil root h)
  unfold Restore.homeOf?
  rw [if_pos htext, hraw, Bytes.dropSuffix?_append, hcons]
  simp [← hcons]

end Spot

end ExplicitNull
