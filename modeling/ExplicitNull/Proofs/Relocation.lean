import ExplicitNull.Proofs.IssueCoordinates
import ExplicitNull.Proofs.Occurrences

/-!
Functions behind other tokens. What is found of a function depends on the tokens from its opening
parenthesis on. Behind further tokens the same is found, at positions moved by their number; issues
look the same there, as long as no line ends in those tokens. The number of a function alone tells
how many functions are in front of it.
-/
namespace ExplicitNull

def Interval.move (d : Nat) (r : Interval) : Interval := ⟨d + r.start, d + r.stop⟩

def Finding.move (d : Nat) (f : Finding) : Finding where
  regions := ⟨f.regions.leading.move d, f.regions.body.move d, f.regions.hasAttribute⟩
  type := f.type
  typeName := f.typeName

def Candidate.move (d : Nat) (c : Candidate) : Candidate := ⟨c.address, c.finding.move d⟩

def ParamList.move (d : Nat) (l : ParamList) : ParamList :=
  ⟨l.functionIndex, d + l.opening, d + l.closing, l.params.map (Interval.move d)⟩

def ParamList.next (l : ParamList) : ParamList := { l with functionIndex := l.functionIndex + 1 }

def Address.next (a : Address) : Address := ⟨a.functionIndex + 1, a.paramIndex⟩

def Candidate.next (c : Candidate) : Candidate := ⟨c.address.next, c.finding⟩

def Issue.next (i : Issue) : Issue := { i with address := i.address.next }

variable {front rest : List Token}

theorem Interval.slice_move (r : Interval) :
    (r.move front.length).slice (front ++ rest) = r.slice rest := by
  rw [slice, slice, move, List.drop_length_add_append, Nat.add_sub_add_left]

namespace Signature

def movePair (d : Nat) (o : Nat × Nat) : Nat × Nat := (d + o.1, d + o.2)

theorem parentheses?_move (d i : Nat) (ts : List Token) :
    parentheses? (d + i) ts = (parentheses? i ts).map (movePair d) := by
  rw [parentheses?, parentheses?]
  rcases fromOpening? ts with _ | list
  · rfl
  · simp only [Option.map_map]
    congr 1
    funext n
    simp only [Function.comp_apply, movePair, Nat.add_assoc]

theorem occurrencesFrom_move (d i : Nat) (ts : List Token) :
    occurrencesFrom (d + i) ts = (occurrencesFrom i ts).map (movePair d) := by
  induction ts generalizing i with
  | nil => rfl
  | cons t ts ih =>
    rw [occurrencesFrom_cons, occurrencesFrom_cons, List.map_append, ← ih (i + 1), occurrence?,
      occurrence?, parentheses?_move, Nat.add_assoc]
    congr 1
    split
    · rcases parentheses? i ts with _ | o <;> rfl
    · rfl

theorem splitFrom_move (d : Nat) (depth : Int) (start i : Nat) (ts : List Token) :
    splitFrom depth (d + start) (d + i) ts = (splitFrom depth start i ts).map (Interval.move d) := by
  induction ts generalizing depth start i with
  | nil =>
    rw [splitFrom, splitFrom]
    by_cases h : start < i
    · rw [if_pos h, if_pos (by omega)]
      rfl
    · rw [if_neg h, if_neg (by omega)]
      rfl
  | cons t ts ih =>
    rw [splitFrom, splitFrom, Nat.add_assoc, ih, ih]
    split <;> rfl

theorem splitParameters_move (inner : Interval) :
    splitParameters (front ++ rest) (inner.move front.length) =
      (splitParameters rest inner).map (Interval.move front.length) := by
  rw [splitParameters, Interval.slice_move]
  exact splitFrom_move ..

theorem splitLeading_move (param : Interval) :
    splitLeading (front ++ rest) (param.move front.length) =
      ⟨(splitLeading rest param).leading.move front.length,
        (splitLeading rest param).body.move front.length,
        (splitLeading rest param).hasAttribute⟩ := by
  simp only [splitLeading, Interval.slice_move]
  simp only [Interval.move, Nat.add_assoc]

end Signature

open Signature

namespace Candidate

theorem inspect_move (param : Interval) :
    inspect (front ++ rest) (param.move front.length) =
      (inspect rest param).map (Finding.move front.length) := by
  simp only [inspect, splitLeading_move, Interval.slice_move]
  split
  · rfl
  · rcases locateType ((splitLeading rest param).body.slice rest) with _ | type
    · rfl
    · simp only
      split <;> rfl

theorem ofList_move (l : ParamList) :
    ofList (front ++ rest) (l.move front.length) = (ofList rest l).map (move front.length) := by
  simp only [ofList, ParamList.move, List.mapIdx_eq_zipIdx_map, List.filterMap_map,
    List.map_filterMap, List.zipIdx_map]
  congr 1
  funext x
  simp [inspect_move, Option.map_map, Function.comp_def, move]

theorem ofList_next (ts : List Token) (l : ParamList) :
    ofList ts l.next = (ofList ts l).map next := by
  simp only [ofList, ParamList.next, List.mapIdx_eq_zipIdx_map, List.filterMap_map,
    List.map_filterMap]
  congr 1
  funext x
  simp [Option.map_map, Function.comp_def, next, Address.next]

end Candidate

namespace Issue

/-- In front of the first line end all tokens start on one line. -/
theorem tokenLines_append (line : UInt32) (hfront : ∀ t ∈ front, byte '\n' ∉ t.text) :
    tokenLines line (front ++ rest) = List.replicate front.length line ++ tokenLines line rest := by
  induction front with
  | nil => rfl
  | cons t front ih =>
    have hcount : (t.text.count (byte '\n')).toUInt32 = 0 := by
      rw [List.count_eq_zero.2 (hfront t (List.mem_cons_self ..))]
      rfl
    rw [List.cons_append, tokenLines, hcount, UInt32.add_zero,
      ih fun u hu => hfront u (List.mem_cons_of_mem _ hu)]
    rfl

theorem ofCandidate_move (file : Path) (hfront : ∀ t ∈ front, byte '\n' ∉ t.text) (c : Candidate) :
    ofCandidate file (front ++ rest) (c.move front.length) = ofCandidate file rest c := by
  have hindex : (c.move front.length).typeIndex = front.length + c.typeIndex := Nat.add_assoc ..
  have hbody : (c.move front.length).body (front ++ rest) = c.body rest :=
    Interval.slice_move c.finding.regions.body
  have hline : lineAt (front ++ rest) (front.length + c.typeIndex) = lineAt rest c.typeIndex := by
    rw [lineAt, tokenLines_append 1 hfront, List.getElem?_append_right (by simp),
      List.length_replicate, Nat.add_sub_cancel_left, lineAt]
  rw [ofCandidate, hindex, hbody, hline]
  rfl

end Issue

def listsIn (ts : List Token) (os : List (Nat × Nat)) : List ParamList :=
  os.mapIdx fun k o => ⟨k, o.1, o.2, splitParameters ts ⟨o.1 + 1, o.2⟩⟩

def issuesIn (file : Path) (ts : List Token) (os : List (Nat × Nat)) : List Issue :=
  ((listsIn ts os).flatMap (Candidate.ofList ts)).map (Issue.ofCandidate file ts)

theorem scanSource_eq_issuesIn (file : Path) (src : Bytes) :
    scanSource file src = issuesIn file (tokenize src) (occurrencesFrom 0 (tokenize src)) := rfl

/-- Tokens in front that end no line change nothing about the issues of the same functions. -/
theorem issuesIn_move (file : Path) (hfront : ∀ t ∈ front, byte '\n' ∉ t.text)
    (os : List (Nat × Nat)) :
    issuesIn file (front ++ rest) (os.map (movePair front.length)) = issuesIn file rest os := by
  have hlists : listsIn (front ++ rest) (os.map (movePair front.length)) =
      (listsIn rest os).map (ParamList.move front.length) := by
    refine List.ext_getElem? fun k => ?_
    simp only [listsIn, List.getElem?_mapIdx, List.getElem?_map, Option.map_map]
    congr 1
    funext o
    have hsplit := @splitParameters_move front rest ⟨o.1 + 1, o.2⟩
    simp only [Interval.move, ← Nat.add_assoc] at hsplit
    simp only [Function.comp_apply, movePair, ParamList.move, hsplit]
  rw [issuesIn, issuesIn, hlists, List.flatMap_map, List.map_flatMap, List.map_flatMap]
  congr 1
  funext l
  rw [Candidate.ofList_move, List.map_map]
  congr 1
  funext c
  exact Issue.ofCandidate_move file hfront c

theorem listsIn_cons (ts : List Token) (o : Nat × Nat) (os : List (Nat × Nat)) :
    listsIn ts (o :: os) = listsIn ts [o] ++ (listsIn ts os).map ParamList.next := by
  have hbehind : (listsIn ts os).map ParamList.next = os.mapIdx fun k o =>
      ⟨k + 1, o.1, o.2, splitParameters ts ⟨o.1 + 1, o.2⟩⟩ := by
    refine List.ext_getElem? fun k => ?_
    simp only [listsIn, List.getElem?_mapIdx, List.getElem?_map, Option.map_map]
    rfl
  rw [hbehind, listsIn, List.mapIdx_cons]
  rfl

/-- The issues of a function come in front of those of the functions behind it, which it raises the
numbers of by one. -/
theorem issuesIn_cons (file : Path) (ts : List Token) (o : Nat × Nat) (os : List (Nat × Nat)) :
    issuesIn file ts (o :: os) = issuesIn file ts [o] ++ (issuesIn file ts os).map Issue.next := by
  have hnext : ∀ l, (Candidate.ofList ts (ParamList.next l)).map (Issue.ofCandidate file ts) =
      ((Candidate.ofList ts l).map (Issue.ofCandidate file ts)).map Issue.next := by
    intro l
    rw [Candidate.ofList_next, List.map_map, List.map_map]
    rfl
  simp only [issuesIn, listsIn_cons ts o os, List.flatMap_append, List.map_append, List.flatMap_map,
    List.map_flatMap, hnext]

end ExplicitNull
