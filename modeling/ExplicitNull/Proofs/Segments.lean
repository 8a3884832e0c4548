import ExplicitNull.Proofs.Characters
import ExplicitNull.Proofs.ExactPatch
import ExplicitNull.Proofs.Paths

/-!
The segments of a path. An exclude is looked for as a text between two slashes, so it shuts out the
paths that have its pieces in a row among their own pieces, the first and the last of these apart.
For a file below a root these are the pieces of the root behind its first slash and then the
directories of the file.
-/
namespace ExplicitNull

namespace Bytes

open ExplicitNull.Fix (joinWith_cons joinWith_cons_append)

variable {sep : UInt8}

theorem containsPart_iff {part bs : Bytes} : containsPart part bs = true ↔ part <:+: bs := by
  induction bs with
  | nil => simp [containsPart]
  | cons b rest ih => simp [containsPart, List.infix_cons_iff, ih]

theorem joinWith_splitOn (sep : UInt8) (bs : Bytes) : joinWith [sep] (splitOn sep bs) = bs := by
  induction bs with
  | nil => rfl
  | cons b rest ih =>
    obtain ⟨piece, pieces, hrest⟩ := List.exists_cons_of_ne_nil (splitOn_ne_nil sep rest)
    rw [splitOn]
    split
    · rename_i hb
      rw [joinWith_cons (splitOn_ne_nil sep rest), ih, hb]
      rfl
    · rw [hrest] at ih ⊢
      have hcons := joinWith_cons_append [sep] [b] piece pieces
      rw [ih] at hcons
      exact hcons

theorem joinWith_append {sep : Bytes} {xs ys : List Bytes} (hxs : xs ≠ []) (hys : ys ≠ []) :
    joinWith sep (xs ++ ys) = joinWith sep xs ++ sep ++ joinWith sep ys := by
  induction xs with
  | nil => exact absurd rfl hxs
  | cons x xs ih =>
    cases xs with
    | nil => rw [List.singleton_append, joinWith_cons hys]; rfl
    | cons x' xs =>
      have hcons := @joinWith_cons sep x _ (List.cons_ne_nil x' xs)
      rw [List.cons_append, joinWith_cons (by simp), ih (by simp), hcons]
      simp only [List.append_assoc]

def inner (sep : UInt8) (bs : Bytes) : List Bytes := ((splitOn sep bs).drop 1).dropLast

theorem inner_append (sep : UInt8) (a b : Bytes) :
    inner sep (a ++ sep :: b) = (splitOn sep a).drop 1 ++ (splitOn sep b).dropLast := by
  obtain ⟨piece, pieces, ha⟩ := List.exists_cons_of_ne_nil (splitOn_ne_nil sep a)
  rw [inner, splitOn_append, ha, List.cons_append, List.drop_succ_cons, List.drop_succ_cons,
    List.drop_zero, List.drop_zero, List.dropLast_append_of_ne_nil (splitOn_ne_nil sep b)]

/-- A text stands between two separators if its pieces stand in a row among those with separators
on both sides. -/
theorem between_isInfix_iff {part bs : Bytes} :
    [sep] ++ part ++ [sep] <:+: bs ↔ splitOn sep part <:+: inner sep bs := by
  constructor
  · rintro ⟨a, b, rfl⟩
    have hsplit : a ++ ([sep] ++ part ++ [sep]) ++ b = a ++ sep :: (part ++ sep :: b) := by simp
    obtain ⟨piece, pieces, hb⟩ := List.exists_cons_of_ne_nil (splitOn_ne_nil sep b)
    rw [hsplit, inner_append, splitOn_append,
      List.dropLast_append_of_ne_nil (splitOn_ne_nil sep b)]
    exact ⟨(splitOn sep a).drop 1, (splitOn sep b).dropLast, by simp⟩
  · rintro ⟨before, behind, hinner⟩
    obtain ⟨first, rest, hbs⟩ := List.exists_cons_of_ne_nil (splitOn_ne_nil sep bs)
    rw [inner, hbs, List.drop_succ_cons, List.drop_zero] at hinner
    have hpart := splitOn_ne_nil sep part
    have hrest : rest ≠ [] := by
      rintro rfl
      simp [hpart] at hinner
    obtain ⟨last, hlast⟩ : ∃ last, rest = rest.dropLast ++ [last] :=
      ⟨rest.getLast hrest, (List.dropLast_concat_getLast hrest).symm⟩
    refine ⟨joinWith [sep] (first :: before), joinWith [sep] (behind ++ [last]), ?_⟩
    have hall : splitOn sep bs = (first :: before) ++ (splitOn sep part ++ (behind ++ [last])) := by
      rw [hbs, hlast, ← hinner]
      simp
    have hwhole := joinWith_splitOn sep bs
    rw [hall, joinWith_append (List.cons_ne_nil _ _) (by simp [hpart]),
      joinWith_append hpart (by simp), joinWith_splitOn] at hwhole
    rw [← hwhole]
    simp only [List.append_assoc]

end Bytes

namespace Utf8

def Starts (b : UInt8) : Prop := b < 0x80 ∨ 0xC0 ≤ b

instance (b : UInt8) : Decidable (Starts b) := inferInstanceAs (Decidable (_ ∨ _))

variable {owed : List Span} {b c : UInt8}

theorem holds_of_starts (hb : Starts b) (h : owedAfter c = some owed) :
    ∀ s ∈ owed, s.holds b = false := by
  unfold Starts at hb
  unfold owedAfter at h
  repeat' split at h
  all_goals cases h <;> simp [Span.holds, tail] <;> grind

/-- A reader that meets a byte that goes on no character reads on as from the start. -/
theorem decodeFrom_append (hb : Starts b) (howed : ∀ s ∈ owed, s.holds b = false) (bits : Nat)
    (a rest : Bytes) :
    decodeFrom owed bits (a ++ b :: rest) = decodeFrom owed bits a ++ decode (b :: rest) := by
  induction a generalizing owed bits with
  | nil =>
    cases owed with
    | nil => rfl
    | cons s owed =>
      have hnot : ¬s.holds b = true := by simp [howed s List.mem_cons_self]
      simp only [List.nil_append, decode, decodeFrom, if_neg hnot]
      cases owedAfter b with
      | none => rfl
      | some owed' => cases owed' <;> rfl
  | cons x a ih =>
    cases owed with
    | nil =>
      rw [List.cons_append, decodeFrom, decodeFrom]
      cases hx : owedAfter x with
      | none => simp only [ih howed, List.cons_append]
      | some owed =>
        have hnext := holds_of_starts hb hx
        cases owed with
        | nil => simp only [ih hnext, List.cons_append]
        | cons s owed => simp only [ih hnext]
    | cons s owed =>
      have hnil : ∀ s ∈ ([] : List Span), s.holds b = false := by simp
      have hrest : ∀ s' ∈ owed, s'.holds b = false :=
        fun s' hs' => howed s' (List.mem_cons_of_mem s hs')
      rw [List.cons_append, decodeFrom, decodeFrom]
      split
      · split
        · simp only [ih hnil, List.cons_append]
        · simp only [ih hrest]
      · cases hx : owedAfter x with
        | none => simp only [ih hnil, List.cons_append]
        | some owed =>
          have hnext := holds_of_starts hb hx
          cases owed with
          | nil => simp only [ih hnext, List.cons_append]
          | cons s owed => simp only [ih hnext, List.cons_append]

theorem decode_append (hb : Starts b) (a rest : Bytes) :
    decode (a ++ b :: rest) = decode a ++ decode (b :: rest) :=
  decodeFrom_append hb (by simp) 0 a rest

theorem decode_ascii (hb : b < 0x80) (rest : Bytes) :
    decode (b :: rest) = Char.ofNat b.toNat :: decode rest := by
  rw [decode, decodeFrom, owedAfter, if_pos hb]
  rfl

theorem repair_slash (a b : Bytes) :
    repair (a ++ byte '/' :: b) = repair a ++ byte '/' :: repair b := by
  rw [repair, decode_append (by decide), decode_ascii (by decide), encode_append, encode_cons]
  rfl

end Utf8

namespace Path

/-- A path as excludes are looked for in it. -/
def text (p : Path) : Bytes := p.display.map fun b => if b = byte '\\' then byte '/' else b

theorem text_slash (a b : Bytes) :
    text ⟨a ++ byte '/' :: b⟩ = text ⟨a⟩ ++ byte '/' :: text ⟨b⟩ := by
  rw [text, display, Utf8.repair_slash, List.map_append, List.map_cons]
  rfl

def segments (p : Path) : List Bytes := Bytes.inner (byte '/') p.text

end Path

namespace Selection

/-- The pieces of an exclude, or of the name of a directory that is never entered, stand in a row
among some segments. -/
def Excludes (s : Selection) (segments : List Bytes) : Prop :=
  ∃ e ∈ skippedDirectories ++ s.segments, Bytes.splitOn (byte '/') e <:+: segments

instance (s : Selection) (segments : List Bytes) : Decidable (s.Excludes segments) :=
  inferInstanceAs (Decidable (∃ e ∈ _, _))

theorem shouldInclude_iff {s : Selection} (hglobs : s.globs = []) {p : Path} :
    s.shouldInclude p = true ↔ s.hasScannedExtension p = true ∧ ¬s.Excludes p.segments := by
  have hsegment : ∀ e, hasSegment p.text e = true ↔
      Bytes.splitOn (byte '/') e <:+: p.segments := fun e => by
    rw [hasSegment, Bytes.containsPart_iff, Bytes.between_isInfix_iff]
    rfl
  have hany : (skippedDirectories ++ s.segments).any (hasSegment p.text) = true ↔
      s.Excludes p.segments := by
    simp only [List.any_eq_true, hsegment]
    rfl
  rw [← hany, List.any_append, shouldInclude, hglobs]
  simp [Path.text]

end Selection

/-! ### Below a root -/

namespace Path

variable {root : Path} {name : Bytes}

def slashed (p : Path) : Path := p.join []

theorem raw_join (root : Path) (name : Bytes) :
    (root.join name).raw = root.slashed.raw ++ name := by
  simp [slashed, join]

theorem exists_slashed (hroot : root.raw ≠ []) : ∃ a, root.slashed.raw = a ++ [byte '/'] := by
  obtain ⟨a, hraw, -⟩ := exists_join hroot []
  exact ⟨a, hraw⟩

theorem raw_slashed_join (hname : name ≠ []) (hslash : byte '/' ∉ name) :
    (root.join name).slashed.raw = root.slashed.raw ++ name ++ [byte '/'] := by
  obtain ⟨start, b, hconcat⟩ := (List.eq_nil_or_concat name).resolve_left hname
  have hb : b ≠ byte '/' := fun hb => hslash (by simp [hconcat, hb])
  rw [slashed, join, raw_join]
  simp [hconcat, hb]

/-- The path of a file is that of its root, a slash and the names of the file. -/
theorem raw_foldl_join {above : List Bytes} (habove : ∀ n ∈ above, IsName n) (name : Bytes) :
    ((above.foldl join root).join name).raw =
      root.slashed.raw ++ Bytes.joinWith [byte '/'] (above ++ [name]) := by
  induction above generalizing root with
  | nil => exact raw_join root name
  | cons n above ih =>
    have hn : IsName n := habove n List.mem_cons_self
    rw [List.foldl_cons, ih fun n' hn' => habove n' (List.mem_cons_of_mem n hn'),
      raw_slashed_join hn.nonempty hn.no_slash, List.cons_append, Fix.joinWith_cons (by simp)]
    simp only [List.append_assoc]

theorem segments_slashed {a : Bytes} (h : root.slashed.raw = a ++ [byte '/']) :
    root.slashed.segments = (Bytes.splitOn (byte '/') (text ⟨a⟩)).drop 1 := by
  have hpath : root.slashed = ⟨a ++ byte '/' :: []⟩ := by rw [← h]
  rw [segments, hpath, text_slash, Bytes.inner_append]
  exact List.append_nil _

end Path

namespace Spot

variable {root : Path} {x : Spot}

def segments (x : Spot) : List Bytes := (x.path ⟨[byte '/']⟩).segments

theorem raw_path (root : Path) (h : x.IsNamed) :
    (x.path root).raw = root.slashed.raw ++ Bytes.joinWith [byte '/'] (x.above ++ [x.name]) :=
  Path.raw_foldl_join h.above x.name

/-- The segments of the path of a file are those of its root and its own. -/
theorem segments_path (hroot : root.raw ≠ []) (h : x.IsNamed) :
    (x.path root).segments = root.slashed.segments ++ x.segments := by
  have hsplit : ∀ {r : Path} {a : Bytes}, r.slashed.raw = a ++ [byte '/'] →
      (x.path r).segments = r.slashed.segments ++
        (Bytes.splitOn (byte '/')
          (Path.text ⟨Bytes.joinWith [byte '/'] (x.above ++ [x.name])⟩)).dropLast := by
    intro r a ha
    have hpath : x.path r =
        ⟨a ++ byte '/' :: Bytes.joinWith [byte '/'] (x.above ++ [x.name])⟩ := by
      have hraw := raw_path r h
      rw [ha, List.append_assoc, List.singleton_append] at hraw
      rw [← hraw]
    rw [Path.segments_slashed ha, hpath, Path.segments, Path.text_slash, Bytes.inner_append]
  obtain ⟨a, ha⟩ := Path.exists_slashed hroot
  have htop : Path.slashed ⟨[byte '/']⟩ = ⟨[] ++ [byte '/']⟩ := rfl
  rw [hsplit ha, segments, hsplit (congrArg Path.raw htop)]
  rfl

theorem hasScannedExtension_path (hroot : root.raw ≠ []) (h : x.IsProper) (s : Selection) :
    s.hasScannedExtension (x.path root) =
      (Path.extensionOf? x.name).any fun e => s.extensions.contains (Bytes.toLower e) := by
  rw [Selection.hasScannedExtension, Path.extension?, fileName?_path hroot h, Option.bind_some]

end Spot

end ExplicitNull
