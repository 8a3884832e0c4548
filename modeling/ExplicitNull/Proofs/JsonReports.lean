import ExplicitNull.CommandLine.Run
import ExplicitNull.Proofs.JsonTexts
import ExplicitNull.Proofs.Runs

/-!
The JSON form of a report. Read as JSON it is an array with an object for each issue, from which the
issue can be made again, so two reports are the same just if their issues are. Without a path that
is text there is no such form, and nothing of it is printed.
-/
namespace ExplicitNull

/-! ### Text in quotes -/

namespace Utf8

variable {a : Bytes}

theorem isValid_of_ascii (h : ∀ c ∈ a, c < 0x80) : isValid a = true := by
  induction a with
  | nil => rfl
  | cons c a ih =>
    have hc : owedAfter c = some [] := if_pos (h c List.mem_cons_self)
    rw [isValid, validFrom, hc]
    exact ih fun d hd => h d (List.mem_cons_of_mem c hd)

theorem isValid_joinWith {sep : Bytes} {pieces : List Bytes} (hsep : isValid sep = true)
    (h : ∀ piece ∈ pieces, isValid piece = true) : isValid (Bytes.joinWith sep pieces) = true := by
  induction pieces with
  | nil => rfl
  | cons piece pieces ih =>
    obtain ⟨hpiece, hrest⟩ := List.forall_mem_cons.1 h
    by_cases hlast : pieces = []
    · rw [hlast]
      exact hpiece
    · rw [Fix.joinWith_cons hlast]
      exact isValid_append (isValid_append hpiece hsep) (ih hrest)

end Utf8

namespace Json

theorem lt_of_mem_escape {b c : UInt8} (hb : b < 0x80) (hc : c ∈ escape b) : c < 0x80 := by
  have hall : ∀ n < 0x80, ∀ c ∈ escape (UInt8.ofNat n), c < 0x80 := by decide +kernel
  have hn : b.toNat < 0x80 := UInt8.lt_iff_toNat_lt.1 hb
  exact hall b.toNat hn c (by rwa [UInt8.ofNat_toNat])

theorem escape_of_le {b : UInt8} (hb : 0x80 ≤ b) : escape b = [b] := by
  have hne : ∀ c, c < 0x80 → b ≠ c := by
    rintro c hc rfl
    exact UInt8.not_lt.2 hb hc
  have hcontrol : ¬b < 0x20 := fun h => UInt8.not_lt.2 hb (UInt8.lt_trans h (by decide))
  rw [escape, if_neg (hne _ (by decide)), if_neg (hne _ (by decide)), if_neg (hne _ (by decide)),
    if_neg (hne _ (by decide)), if_neg (hne _ (by decide)), if_neg (hne _ (by decide)),
    if_neg (hne _ (by decide)), if_neg hcontrol]

/-- Escaping goes on where the characters do. -/
theorem validFrom_escaped {owed : List Utf8.Span} (howed : Utf8.Beyond owed) {text : Bytes}
    (h : Utf8.validFrom owed text = true) :
    Utf8.validFrom owed (text.flatMap escape) = true := by
  induction text generalizing owed with
  | nil => exact h
  | cons b text ih =>
    rw [List.flatMap_cons]
    cases owed with
    | nil =>
      rw [Utf8.validFrom] at h
      by_cases hb : b < 0x80
      · have howed : Utf8.owedAfter b = some [] := if_pos hb
        rw [howed] at h
        exact Utf8.isValid_append (Utf8.isValid_of_ascii fun c => lt_of_mem_escape hb)
          (ih (by simp [Utf8.Beyond]) h)
      · rw [escape_of_le (UInt8.not_lt.1 hb), List.singleton_append, Utf8.validFrom]
        cases hafter : Utf8.owedAfter b with
        | none => simp [hafter] at h
        | some owed =>
          rw [hafter] at h
          exact ih (Utf8.beyond_owedAfter hafter) h
    | cons s owed =>
      rw [Utf8.validFrom, Bool.and_eq_true] at h
      have hlow : 0x80 ≤ s.low := howed s List.mem_cons_self
      have hb : 0x80 ≤ b := by
        have hholds := h.1
        simp only [Utf8.Span.holds, Bool.and_eq_true, decide_eq_true_eq] at hholds
        exact UInt8.le_trans hlow hholds.1
      rw [escape_of_le hb, List.singleton_append, Utf8.validFrom, h.1, Bool.true_and]
      exact ih (fun s' hs' => howed s' (List.mem_cons_of_mem s hs')) h.2

theorem isValid_quote {text : Bytes} (h : Utf8.isValid text = true) :
    Utf8.isValid (quote text) = true := by
  have hquote : Utf8.isValid [byte '\x22'] = true := by decide
  exact Utf8.isValid_append
    (Utf8.isValid_append hquote (validFrom_escaped (by simp [Utf8.Beyond]) h)) hquote

theorem isValid_decimal (n : Nat) : Utf8.isValid (decimal n) = true := by
  refine Utf8.isValid_of_ascii fun d hd => ?_
  have hdigit := isDigit_of_mem_decimal hd
  have hnine : byte '9' < 0x80 := by decide
  simp only [Ascii.isDigit, Bool.and_eq_true, decide_eq_true_eq] at hdigit
  exact UInt8.lt_of_le_of_lt hdigit.2 hnine

/-! ### What a value holds -/

def member? (key : Bytes) : Json → Option Json
  | .object members => (members.find? (·.1 == key)).map Prod.snd
  | _ => none

theorem member?_eq {members : List (Bytes × Json)} (hkeys : (members.map Prod.fst).Nodup)
    {key : Bytes} {v : Json} (h : (key, v) ∈ members) : member? key (.object members) = some v := by
  induction members with
  | nil => cases h
  | cons m members ih =>
    rw [List.map_cons, List.nodup_cons] at hkeys
    rw [member?]
    rcases List.mem_cons.1 h with rfl | h
    · simp
    · have hne : m.1 ≠ key := fun heq => hkeys.1 (heq ▸ List.mem_map_of_mem h)
      rw [List.find?_cons_of_neg (by simpa using hne)]
      exact ih hkeys.2 h

def text? : Json → Option Bytes
  | .string text => some text
  | _ => none

def natural? : Json → Option Nat
  | .number digits => if digits.all Ascii.isDigit then some (numeral digits) else none
  | _ => none

theorem natural?_decimal (n : Nat) : natural? (.number (decimal n)) = some n := by
  have hdigits : (decimal n).all Ascii.isDigit = true :=
    List.all_eq_true.2 fun d => isDigit_of_mem_decimal
  rw [natural?, if_pos hdigits, numeral_decimal]

end Json

namespace Report

open CommandLine (Options Output runScan skippedLines)
open Json (Reads Member)

variable {i : Issue} {issues : List Issue}

def pairs (i : Issue) : List (Bytes × Json) :=
  [(utf8 "file", .string i.file.raw),
    (utf8 "function_index", .number (decimal i.address.functionIndex)),
    (utf8 "param_index", .number (decimal i.address.paramIndex)),
    (utf8 "type_start", .number (decimal i.typeStart)),
    (utf8 "line", .number (decimal i.line)),
    (utf8 "parameter", .string i.parameter),
    (utf8 "type_name", .string i.typeName)]

theorem nodup_keys (i : Issue) : ((pairs i).map Prod.fst).Nodup := by
  simp only [pairs, List.map_cons, List.map_nil]
  decide

def value (i : Issue) : Json := .object (pairs i)

def issue? (v : Json) : Option Issue := do
  let file ← (v.member? (utf8 "file")).bind Json.text?
  let functionIndex ← (v.member? (utf8 "function_index")).bind Json.natural?
  let paramIndex ← (v.member? (utf8 "param_index")).bind Json.natural?
  let typeStart ← (v.member? (utf8 "type_start")).bind Json.natural?
  let line ← (v.member? (utf8 "line")).bind Json.natural?
  let parameter ← (v.member? (utf8 "parameter")).bind Json.text?
  let typeName ← (v.member? (utf8 "type_name")).bind Json.text?
  some ⟨⟨file⟩, ⟨functionIndex, paramIndex⟩, typeStart, line, parameter, typeName⟩

theorem issue?_value (i : Issue) : issue? (value i) = some i := by
  have hmember : ∀ key v, (key, v) ∈ pairs i → Json.member? key (value i) = some v :=
    fun key v => Json.member?_eq (nodup_keys i)
  rw [issue?, hmember _ (.string i.file.raw) (by simp [pairs]),
    hmember _ (.number (decimal i.address.functionIndex)) (by simp [pairs]),
    hmember _ (.number (decimal i.address.paramIndex)) (by simp [pairs]),
    hmember _ (.number (decimal i.typeStart)) (by simp [pairs]),
    hmember _ (.number (decimal i.line)) (by simp [pairs]),
    hmember _ (.string i.parameter) (by simp [pairs]),
    hmember _ (.string i.typeName) (by simp [pairs])]
  simp [Json.text?, Json.natural?_decimal]

theorem value_injective : Function.Injective value := fun i j h =>
  Option.some.inj (by rw [← issue?_value i, h, issue?_value])

def plain : Json → Bytes
  | .string text => Json.quote text
  | .number digits => digits
  | _ => []

theorem object_eq_join (i : Issue) : object i = utf8 "  \x7b\n" ++ Bytes.joinWith (utf8 ",\n")
    ((pairs i).map fun p => utf8 "    " ++ Json.quote p.1 ++ utf8 ": " ++ plain p.2) ++
      utf8 "\n  \x7d" := rfl

theorem reads_plain : ∀ p ∈ pairs i, Reads (plain p.2) p.2 := by
  simp only [pairs, plain, List.forall_mem_cons]
  exact ⟨Json.reads_quote _, Json.reads_decimal _, Json.reads_decimal _, Json.reads_decimal _,
    Json.reads_decimal _, Json.reads_quote _, Json.reads_quote _, by simp⟩

def member (p : Bytes × Json) : Member := ⟨p.1, utf8 " " ++ plain p.2, p.2⟩

theorem reads_members : ∀ m ∈ (pairs i).map member, Reads m.text m.value :=
  List.forall_mem_map.2 fun p hp => (reads_plain p hp).gap (by decide)

theorem value_eq (i : Issue) : value i = .object (((pairs i).map member).map Member.pair) := rfl

theorem object_eq (i : Issue) : object i = utf8 "  " ++ (byte '\x7b' :: (utf8 "\n" ++
    (Bytes.joinWith (byte ',' :: utf8 "\n")
      (((pairs i).map member).map (Member.written (utf8 "    "))) ++
      (utf8 "\n  " ++ [byte '\x7d'])))) := by
  have hcolon : utf8 ": " = byte ':' :: utf8 " " := by decide
  have hopen : utf8 "  \x7b\n" = utf8 "  " ++ byte '\x7b' :: utf8 "\n" := by decide
  have hclose : utf8 "\n  \x7d" = utf8 "\n  " ++ [byte '\x7d'] := by decide
  have hcomma : utf8 ",\n" = byte ',' :: utf8 "\n" := by decide
  have hmembers : (pairs i).map (fun p => utf8 "    " ++ Json.quote p.1 ++ utf8 ": " ++ plain p.2) =
      ((pairs i).map member).map (Member.written (utf8 "    ")) := by
    rw [List.map_map]
    refine List.map_congr_left fun p _ => ?_
    simp [member, Member.written, hcolon]
  rw [object_eq_join, hmembers, hopen, hclose, hcomma]
  simp only [List.append_assoc, List.cons_append]

theorem reads_object (i : Issue) : Reads (object i) (value i) := by
  rw [object_eq, value_eq]
  exact (Reads.object (by simp [pairs]) reads_members (by decide) (by decide) (by decide)
    (by decide)).gap (by decide)

theorem reads_objects (hne : issues ≠ []) :
    Reads (utf8 "[\n" ++ Bytes.joinWith (utf8 ",\n") (issues.map object) ++ utf8 "\n]")
      (.array (issues.map value)) := by
  have hopen : utf8 "[\n" = byte '[' :: utf8 "\n" := by decide
  have hclose : utf8 "\n]" = utf8 "\n" ++ [byte ']'] := by decide
  have hcomma : utf8 ",\n" = byte ',' :: utf8 "\n" := by decide
  have hitems : ∀ item ∈ issues.map fun i => (object i, value i), Reads item.1 item.2 :=
    List.forall_mem_map.2 fun i _ => reads_object i
  have hreads := Reads.array (by simpa using hne) hitems (by decide : Json.Gap (utf8 "\n"))
    (by decide : Json.Gap (utf8 "\n")) (by decide : Json.Gap (utf8 "\n"))
  rw [List.map_map, List.map_map] at hreads
  rw [hopen, hclose, hcomma, List.append_assoc, List.cons_append]
  exact hreads

theorem exists_renderJson? (h : ∀ i ∈ issues, Utf8.isValid i.file.raw = true) :
    ∃ text, renderJson? issues = some text :=
  ⟨_, if_pos (List.all_eq_true.2 h)⟩

theorem renderJson?_eq_none (h : ∃ i ∈ issues, Utf8.isValid i.file.raw = false) :
    renderJson? issues = none := by
  obtain ⟨i, hi, hinvalid⟩ := h
  refine if_neg fun hall => ?_
  rw [List.all_eq_true.1 hall i hi] at hinvalid
  cases hinvalid

/-- The JSON form of a report is read as an array of its issues. -/
theorem reads_of_renderJson? {text : Bytes} (h : renderJson? issues = some text) :
    Reads text (.array (issues.map value)) := by
  unfold renderJson? at h
  split at h
  · cases h
    by_cases hnil : issues = []
    · subst hnil
      exact Json.reads_emptyArray
    · simp only [List.isEmpty_iff, if_neg hnil]
      exact reads_objects hnil
  · cases h

/-! ### The text of a report -/

structure IsText (i : Issue) : Prop where
  file : Utf8.isValid i.file.raw = true
  parameter : Utf8.isValid i.parameter = true
  typeName : Utf8.isValid i.typeName = true

theorem isValid_object (h : IsText i) : Utf8.isValid (object i) = true := by
  have hfields : ∀ f ∈ fields i, Utf8.isValid f.1 = true ∧ Utf8.isValid f.2 = true := by
    simp only [fields, List.forall_mem_cons]
    exact ⟨⟨by decide, Json.isValid_quote h.file⟩, ⟨by decide, Json.isValid_decimal _⟩,
      ⟨by decide, Json.isValid_decimal _⟩, ⟨by decide, Json.isValid_decimal _⟩,
      ⟨by decide, Json.isValid_decimal _⟩, ⟨by decide, Json.isValid_quote h.parameter⟩,
      ⟨by decide, Json.isValid_quote h.typeName⟩, by simp⟩
  unfold object
  refine Utf8.isValid_append (Utf8.isValid_append (by decide)
    (Utf8.isValid_joinWith (by decide) (List.forall_mem_map.2 fun f hf => ?_))) (by decide)
  obtain ⟨hkey, hvalue⟩ := hfields f hf
  exact Utf8.isValid_append (Utf8.isValid_append
    (Utf8.isValid_append (by decide) (Json.isValid_quote hkey)) (by decide)) hvalue

theorem isValid_of_renderJson? {text : Bytes} (hissues : ∀ i ∈ issues, IsText i)
    (h : renderJson? issues = some text) : Utf8.isValid text = true := by
  unfold renderJson? at h
  split at h
  · cases h
    split
    · decide
    · exact Utf8.isValid_append (Utf8.isValid_append (by decide)
        (Utf8.isValid_joinWith (by decide)
          (List.forall_mem_map.2 fun i hi => isValid_object (hissues i hi)))) (by decide)
  · cases h

/-- A run that is to list issues as JSON prints their JSON form, or nothing and fails. -/
theorem run_runScan {t t' : Tree} {o : Options} {selection : Selection} {report : ScanReport}
    (hscan : (scan o.path selection : StateM Tree (Except Failure ScanReport)).run t =
      (.ok report, t')) (hformat : o.format = .json) :
    (runScan o selection : StateM Tree Output).run t =
      (match renderJson? report.issues with
        | none => (Output.failed .unrenderable).after [] (skippedLines report.skipped)
        | some text => Output.done (Output.line [text]) (skippedLines report.skipped), t') := by
  unfold runScan
  rw [Tree.run_bind, hscan]
  dsimp only
  rw [if_pos hformat]
  cases renderJson? report.issues <;> rfl

/-- Issues whose paths are text have a JSON form, which is text if all that is written is. It is
read as an array with one object for each issue, in their order, and the seven fields of an object
give back the issue, so no other issues have this form. If a path is not text there is no form, and
a run that is to print it prints nothing and fails. -/
theorem renderJson?_roundTrips (issues : List Issue) :
    ((∀ i ∈ issues, Utf8.isValid i.file.raw = true) → ∃ text,
      renderJson? issues = some text ∧
      Json.read? text = some (.array (issues.map fun i => .object (pairs i))) ∧
      (issues.map fun i => issue? (.object (pairs i))) = issues.map some ∧
      (∀ others, renderJson? others = some text → others = issues) ∧
      ((∀ i ∈ issues, IsText i) → Utf8.isValid text = true)) ∧
    ((∃ i ∈ issues, Utf8.isValid i.file.raw = false) →
      renderJson? issues = none ∧
      ∀ (t t' : Tree) (o : Options) (selection : Selection) (report : ScanReport),
        (scan o.path selection : StateM Tree (Except Failure ScanReport)).run t =
          (.ok report, t') →
        report.issues = issues → o.format = .json →
        ∃ stderr, (runScan o selection : StateM Tree Output).run t = (⟨1, [], stderr⟩, t')) := by
  constructor
  · intro hpaths
    obtain ⟨text, htext⟩ := exists_renderJson? hpaths
    have hread := Json.read?_of_reads (reads_of_renderJson? htext)
    refine ⟨text, htext, hread, ?_, fun others hothers => ?_,
      fun hissues => isValid_of_renderJson? hissues htext⟩
    · exact List.map_congr_left fun i _ => issue?_value i
    · have hsame := Json.read?_of_reads (reads_of_renderJson? hothers)
      rw [hread, Option.some.injEq, Json.array.injEq] at hsame
      exact (value_injective.list_map hsame).symm
  · intro hpath
    have hnone := renderJson?_eq_none hpath
    refine ⟨hnone, fun t t' o selection report hscan hreport hformat => ?_⟩
    rw [run_runScan hscan hformat, hreport, hnone]
    exact ⟨_, rfl⟩

def quotedIssue : Issue where
  file := ⟨utf8 "a\x22\\/é.php"⟩
  address := ⟨18446744073709551615, 0⟩
  typeStart := 10
  line := 4294967295
  parameter := utf8 "$é"
  typeName := utf8 "Foo\r\n\t\x01\x7f"

def namelessTree : Tree :=
  ⟨[([0xff :: utf8 ".php"], .file (utf8 "<?php function f(Foo $a = null) \x7b\x7d"))]⟩

def namelessIssue : Issue where
  file := ⟨utf8 "./" ++ 0xff :: utf8 ".php"⟩
  address := ⟨0, 0⟩
  typeStart := 0
  line := 1
  parameter := utf8 "$a"
  typeName := utf8 "Foo"

def jsonOptions : Options := ⟨⟨utf8 "."⟩, .list, none, [], false, none, .json, none, false⟩

def phpSelection : Selection := ⟨[utf8 "php"], [], [], utf8 ".bak", .mark⟩

theorem renderJson?_roundTrips_quotedIssue :
    (∃ text, renderJson? [quotedIssue, quotedIssue] = some text ∧
      Json.read? text = some (.array [.object (pairs quotedIssue), .object (pairs quotedIssue)]) ∧
      Utf8.isValid text = true) ∧
    renderJson? [namelessIssue] = none ∧
    ∃ stderr, (runScan jsonOptions phpSelection : StateM Tree Output).run namelessTree =
      (⟨1, [], stderr⟩, namelessTree) := by
  have hquoted : ∀ i ∈ [quotedIssue, quotedIssue], IsText i := by
    intro i hi
    obtain rfl : i = quotedIssue := by simpa using hi
    exact ⟨by decide, by decide, by decide⟩
  obtain ⟨text, htext, hread, -, -, hvalid⟩ :=
    (renderJson?_roundTrips [quotedIssue, quotedIssue]).1 fun i hi => (hquoted i hi).file
  obtain ⟨hnone, hrun⟩ := (renderJson?_roundTrips [namelessIssue]).2
    ⟨namelessIssue, List.mem_cons_self, by decide⟩
  have hkind : namelessTree.kind jsonOptions.path = .ok .directory := by decide
  have hissues : (ScanReport.ofReadings
      ((namelessTree.selected jsonOptions.path phpSelection).map namelessTree.reading)).issues =
      [namelessIssue] := by decide +kernel
  exact ⟨⟨text, htext, hread, hvalid hquoted⟩, hnone,
    hrun namelessTree namelessTree jsonOptions phpSelection _ (Tree.run_scan phpSelection hkind)
      hissues rfl⟩

end Report

end ExplicitNull
