import ExplicitNull.FileSystem.Basic

/-!
A tree of files as a value: a finite map from locations to files, symbolic links and
directories. A location is the list of names that lead to an entry from the top. A path is
resolved to a location step by step, through the links that it meets, forty at most; what then
happens, happens at locations. The top is its own parent, and absolute paths start there too.
-/
namespace ExplicitNull

inductive Entry
  | file (bytes : Bytes)
  | link (target : Path)
  | directory
  deriving DecidableEq, Repr

abbrev Location := List Bytes

/-- The top is a directory and has no entry of its own. -/
structure Tree where
  entries : List (Location × Entry)
  deriving DecidableEq, Repr

inductive Target
  | found (loc : Location) (entry : Entry)
  /-- Nothing is there, but the directory in which it would be exists. -/
  | vacant (loc : Location)
  deriving DecidableEq, Repr

namespace Path

def names (p : Path) : List Bytes := (Bytes.splitOn (byte '/') p.raw).filter (· ≠ [])

def endsInSlash (p : Path) : Bool := p.raw.getLast? == some (byte '/')

/-- The steps of a path: its names, and an empty step for a slash behind them. -/
def steps (p : Path) : List Bytes := p.names ++ if p.endsInSlash then [[]] else []

def isAbsolute (p : Path) : Bool := p.raw.head? == some (byte '/')

end Path

namespace Tree

def empty : Tree := ⟨[]⟩

def lookup (loc : Location) : List (Location × Entry) → Option Entry
  | [] => none
  | (loc', e) :: rest => if loc = loc' then some e else lookup loc rest

def get? (t : Tree) (loc : Location) : Option Entry :=
  if loc = [] then some .directory else lookup loc t.entries

def put (loc : Location) (e : Entry) : List (Location × Entry) → List (Location × Entry)
  | [] => [(loc, e)]
  | (loc', e') :: rest => if loc = loc' then (loc, e) :: rest else (loc', e') :: put loc e rest

def set (t : Tree) (loc : Location) (e : Entry) : Tree := ⟨put loc e t.entries⟩

def erase (t : Tree) (loc : Location) : Tree := ⟨t.entries.filter (·.1 ≠ loc)⟩

def below? : (here loc : Location) → Option Location
  | [], loc => some loc
  | _ :: _, [] => none
  | a :: here, b :: loc => if a = b then below? here loc else none

def under (here : Location) : List (Location × Entry) → List (Location × Entry)
  | [] => []
  | (loc, e) :: rest =>
    match below? here loc with
    | some names => (names, e) :: under here rest
    | none => under here rest

theorem below?_eq_some {here loc names : Location} :
    below? here loc = some names ↔ loc = here ++ names := by
  induction here generalizing loc with
  | nil => simp [below?]
  | cons a here ih =>
    cases loc with
    | nil => simp [below?]
    | cons b loc => by_cases h : a = b <;> simp [below?, h, ih, eq_comm]

theorem below?_eq_none {here loc : Location} :
    below? here loc = none ↔ ∀ names, loc ≠ here ++ names := by
  rw [Option.eq_none_iff_forall_ne_some]
  exact forall_congr' fun names => not_congr below?_eq_some

theorem lookup_under (here loc : Location) (entries : List (Location × Entry)) :
    lookup loc (under here entries) = lookup (here ++ loc) entries := by
  induction entries with
  | nil => rfl
  | cons entry rest ih =>
    obtain ⟨loc', e⟩ := entry
    rcases h : below? here loc' with _ | names
    · have hne : here ++ loc ≠ loc' := fun h' => below?_eq_none.1 h loc h'.symm
      simp [under, h, lookup, hne, ih]
    · obtain rfl := below?_eq_some.1 h
      simp [under, h, lookup, ih]

theorem under_under (a b : Location) (entries : List (Location × Entry)) :
    under b (under a entries) = under (a ++ b) entries := by
  induction entries with
  | nil => rfl
  | cons entry rest ih =>
    obtain ⟨loc, e⟩ := entry
    rcases h : below? (a ++ b) loc with _ | names
    · rcases ha : below? a loc with _ | names'
      · simp [under, h, ha, ih]
      · obtain rfl := below?_eq_some.1 ha
        have hb : below? b names' = none := below?_eq_none.2 fun n hn =>
          below?_eq_none.1 h n (by simp [hn])
        simp [under, h, ha, hb, ih]
    · have hl := below?_eq_some.1 h
      rw [List.append_assoc] at hl
      have ha := below?_eq_some.2 hl
      have hb : below? b (b ++ names) = some names := below?_eq_some.2 rfl
      simp [under, h, ha, hb, ih]

def maxLinks : Nat := 40

def maxNameLength : Nat := 255

inductive Purpose
  /-- The entry at its end, be it a link. -/
  | entry
  /-- What links at its end lead to. -/
  | target
  /-- A file to write, which may be missing. Its name has no slash behind it. -/
  | writing
  deriving DecidableEq, Repr

/-- Walks the steps of a path from the directory `here`, of which `near` has the entries; `jump`
goes on from there when the way leads through a link. -/
def walk (t : Tree) (purpose : Purpose)
    (jump : Location → List Bytes → Except FileError Target) (here : Location)
    (near : List (Location × Entry)) : List Bytes → Except FileError Target
  | [] => .ok (.found here .directory)
  | name :: rest =>
    if name = [] ∨ name = utf8 "." then walk t purpose jump here near rest
    else if name = utf8 ".." then
      walk t purpose jump here.dropLast (under here.dropLast t.entries) rest
    else if purpose = .writing ∧ rest = [[]] then .error .isADirectory
    else if maxNameLength < name.length then .error .nameTooLong
    else
      let loc := here ++ [name]
      match lookup [name] near with
      | none => if rest = [] then .ok (.vacant loc) else .error .notFound
      | some .directory => walk t purpose jump loc (under [name] near) rest
      | some (.file bytes) =>
        if rest = [] then .ok (.found loc (.file bytes)) else .error .notADirectory
      | some (.link target) =>
        if rest = [] ∧ purpose = .entry then .ok (.found loc (.link target))
        else jump (if target.isAbsolute then [] else here) (target.steps ++ rest)

def resolveFrom (t : Tree) (purpose : Purpose) :
    (links : Nat) → Location → List Bytes → Except FileError Target
  | 0, here => walk t purpose (fun _ _ => .error .tooManyLinks) here (under here t.entries)
  | links + 1, here => walk t purpose (resolveFrom t purpose links) here (under here t.entries)

def beyond (t : Tree) (purpose : Purpose) :
    (links : Nat) → Location → List Bytes → Except FileError Target
  | 0 => fun _ _ => .error .tooManyLinks
  | links + 1 => resolveFrom t purpose links

theorem resolveFrom_eq_walk (t : Tree) (purpose : Purpose) (links : Nat) (here : Location)
    (steps : List Bytes) :
    resolveFrom t purpose links here steps =
      walk t purpose (beyond t purpose links) here (under here t.entries) steps := by
  cases links <;> rfl

/-- One step of a walk, by what the tree has at the next location. -/
theorem resolveFrom_cons (t : Tree) (purpose : Purpose) (links : Nat) (here : Location)
    (name : Bytes) (rest : List Bytes) :
    resolveFrom t purpose links here (name :: rest) =
      if name = [] ∨ name = utf8 "." then resolveFrom t purpose links here rest
      else if name = utf8 ".." then resolveFrom t purpose links here.dropLast rest
      else if purpose = .writing ∧ rest = [[]] then .error .isADirectory
      else if maxNameLength < name.length then .error .nameTooLong
      else match t.get? (here ++ [name]) with
        | none => if rest = [] then .ok (.vacant (here ++ [name])) else .error .notFound
        | some .directory => resolveFrom t purpose links (here ++ [name]) rest
        | some (.file bytes) =>
          if rest = [] then .ok (.found (here ++ [name]) (.file bytes)) else .error .notADirectory
        | some (.link target) =>
          if rest = [] ∧ purpose = .entry then .ok (.found (here ++ [name]) (.link target))
          else beyond t purpose links (if target.isAbsolute then [] else here)
            (target.steps ++ rest) := by
  have hget : t.get? (here ++ [name]) = lookup (here ++ [name]) t.entries := if_neg (by simp)
  simp only [resolveFrom_eq_walk, walk, lookup_under, under_under, hget]

def resolve (t : Tree) (purpose : Purpose) (p : Path) : Except FileError Target :=
  match p.fault? with
  | some e => .error e
  | none => resolveFrom t purpose maxLinks [] p.steps

/-- The place of the last name of a path and what is there, a link not followed. A path that ends
in dots, or is a root, has no such name and fails with `nameless`. -/
def place (t : Tree) (nameless : FileError) (p : Path) : Except FileError Target :=
  match p.fault? with
  | some e => .error e
  | none =>
    match resolveFrom t .target maxLinks [] (p.names.dropLast ++ [[]]) with
    | .ok (.found here _) =>
      match p.names.getLast? with
      | none => .error nameless
      | some name =>
        if name = utf8 "." ∨ name = utf8 ".." then .error nameless
        else resolveFrom t .entry 0 here [name]
    | r => r

def kind (t : Tree) (p : Path) : Except FileError EntryKind :=
  match t.resolve .target p with
  | .error e => .error e
  | .ok (.found _ .directory) => .ok .directory
  | .ok (.found _ _) => .ok .file
  | .ok (.vacant _) => .error .notFound

def file (t : Tree) (p : Path) : Except FileError (Location × Bytes) :=
  match t.resolve .target p with
  | .error e => .error e
  | .ok (.found loc (.file bytes)) => .ok (loc, bytes)
  | .ok (.found _ .directory) => .error .isADirectory
  | .ok (.found _ (.link _)) | .ok (.vacant _) => .error .notFound

def read (t : Tree) (p : Path) : Except FileError Bytes := (t.file p).map Prod.snd

def writable (t : Tree) (p : Path) : Except FileError Location :=
  match t.resolve .writing p with
  | .error e => .error e
  | .ok (.found loc (.file _)) | .ok (.vacant loc) => .ok loc
  | .ok (.found _ .directory) => .error .isADirectory
  | .ok (.found _ (.link _)) => .error .tooManyLinks

def write (t : Tree) (p : Path) (bytes : Bytes) : Except FileError Tree :=
  (t.writable p).map fun loc => t.set loc (.file bytes)

/-- The target is emptied before the bytes are copied, so a file copied onto itself ends up empty.
-/
def copy (t : Tree) (source target : Path) : Except FileError Tree :=
  match t.file source with
  | .error .isADirectory => .error .notRegular
  | .error e => .error e
  | .ok (loc, bytes) =>
    (t.writable target).map fun loc' => t.set loc' (.file (if loc' = loc then [] else bytes))

/-- Moves a file or a link. Nothing moves onto a directory, nor to a path that ends in dots or in
a slash. -/
def rename (t : Tree) (source target : Path) : Except FileError Tree :=
  match t.place .busy source, t.place .busy target with
  | .error e, _ | _, .error e => .error e
  | .ok (.vacant _), _ => .error .notFound
  | .ok (.found _ .directory), _ => .error .isADirectory
  | .ok (.found loc e), .ok there =>
    if source.endsInSlash || target.endsInSlash then .error .notADirectory
    else match there with
      | .found _ .directory => .error .isADirectory
      | .found loc' _ | .vacant loc' => .ok (if loc' = loc then t else (t.erase loc).set loc' e)

/-- The path below `root` of an entry, if it is a file, all directories on the way may be entered
and the path is not too long. -/
def pathBelow? (enter : Bytes → Bool) (root : Path) (here : Location) (entry : Location × Entry) :
    Option Path :=
  match below? here entry.1, entry.2 with
  | some (name :: names), .file _ =>
    let p := (name :: names).foldl Path.join root
    if (name :: names).dropLast.all enter && decide (p.raw.length < Path.tooLong) then some p
    else none
  | _, _ => none

def filesBelow (t : Tree) (enter : Bytes → Bool) (root : Path) : Except FileError (List Path) :=
  match t.resolve .target root with
  | .error e => .error e
  | .ok (.found here .directory) => .ok (t.entries.filterMap (pathBelow? enter root here))
  | .ok (.found _ _) => .error .notADirectory
  | .ok (.vacant _) => .error .notFound

def change (operation : Tree → Except FileError Tree) : StateM Tree (Except FileError Unit) :=
  fun t =>
    match operation t with
    | .ok t' => (.ok (), t')
    | .error e => (.error e, t)

instance : FileSystem (StateM Tree) where
  kind p := fun t => (t.kind p, t)
  filesBelow enter root := fun t => (t.filesBelow enter root, t)
  read p := fun t => (t.read p, t)
  write p bytes := change (·.write p bytes)
  copy source target := change (·.copy source target)
  rename source target := change (·.rename source target)

end Tree

end ExplicitNull
