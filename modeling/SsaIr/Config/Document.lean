import SsaIr.Config.Toml

/-!
# Documents

The tables and values that the events of a text (`SsaIr.Config.Toml`) build. A name is given a
meaning once; a table that was only passed through on the way to another, or was written inline, may
still get a header. Read `Document.ofEvents` first.
-/

namespace SsaIr

namespace Toml

inductive Field where
  | value (v : Scalar) (line : Nat)
  | table (line : Nat) (closed : Bool) (fields : List (String × Field))
  | tables (line : Nat) (fields : List (String × Field))
deriving Repr, Inhabited

def Field.line : Field → Nat
  | value _ n => n
  | table n _ _ => n
  | tables n _ => n

abbrev Fields := List (String × Field)

namespace Fields

def put (fields : Fields) (name : String) (f : Field) : Fields :=
  if (fields.lookup name).isSome then fields.map fun p => if p.1 = name then (name, f) else p
  else fields ++ [(name, f)]

end Fields

inductive Conflict where
  | badText
  | path (key : String) (line : Nat)
  | tableOnTable (name : String) (line : Nat)
  | tableOnTables (name : String) (line : Nat)
  | tableOnValue (name : String) (line : Nat)
  | tablesOnTable (name : String) (line : Nat)
  | tablesOnValue (name : String) (line : Nat)
  | keyOnTable (key : String) (line : Nat)
  | keyOnTables (key : String)
  | keyOnValue (key : String) (line : Nat)
deriving DecidableEq, Repr, Inhabited

namespace Conflict

/-- The wording. A key that is given twice names the earlier line in hexadecimal. -/
def message : Conflict → String
  | badText => "invalid syntax"
  | path k n => s!"key `{k}' is in conflict with line {n}"
  | tableOnTable t n => s!"table `{t}' is in conflict with table in line {n}"
  | tableOnTables t n => s!"table `{t}' is in conflict with array table in line {n}"
  | tableOnValue t n => s!"table `{t}' is in conflict with line {n}"
  | tablesOnTable t n => s!"array table `{t}' is in conflict with table in line {n}"
  | tablesOnValue t n => s!"array table `{t}' is in conflict with line {n}"
  | keyOnTable k n => s!"key `{k}' is in conflict with table in line {n}"
  | keyOnTables k => s!"BUG: key `{k}' is in conflict but it's unknown type `[]*ast.Table'"
  | keyOnValue k n => s!"key `{k}' is in conflict with line {Text.hex n}d"

end Conflict

namespace Fields

/-- Change the fields of the table at a path. Tables that are missing on the way are made. -/
def update (line : Nat) (change : Fields → Except Conflict Fields) (fields : Fields) :
    List String → Except Conflict Fields
  | [] => change fields
  | name :: rest =>
    match fields.lookup name with
    | none => do return fields.put name (.table line false (← update line change [] rest))
    | some (.table n closed inner) => do
      return fields.put name (.table n closed (← update line change inner rest))
    | some (.tables n inner) => do
      return fields.put name (.tables n (← update line change inner rest))
    | some (.value _ n) => .error (.path name n)

def addTable (line : Nat) (closed : Bool) (text name : String) (fields : Fields) :
    Except Conflict Fields :=
  match fields.lookup name with
  | none => .ok (fields.put name (.table line closed []))
  | some (.table n true _) => .error (.tableOnTable text n)
  | some (.table _ false inner) => .ok (fields.put name (.table line closed inner))
  | some (.tables n _) => .error (.tableOnTables text n)
  | some (.value _ n) => .error (.tableOnValue text n)

def addElement (line : Nat) (text name : String) (fields : Fields) : Except Conflict Fields :=
  match fields.lookup name with
  | none => .ok (fields.put name (.tables line []))
  | some (.tables n _) => .ok (fields.put name (.tables n []))
  | some (.table n _ _) => .error (.tablesOnTable text n)
  | some (.value _ n) => .error (.tablesOnValue text n)

def addValue (line : Nat) (name : String) (v : Scalar) (fields : Fields) : Except Conflict Fields :=
  match fields.lookup name with
  | none => .ok (fields.put name (.value v line))
  | some (.table n _ _) => .error (.keyOnTable name n)
  | some (.tables _ _) => .error (.keyOnTables name)
  | some (.value _ n) => .error (.keyOnValue name n)

end Fields

structure Document where
  fields : Fields := []
  current : List String := []
  outer : List (List String) := []
deriving Repr, Inhabited

structure ConflictAt where
  line : Nat
  conflict : Conflict
deriving DecidableEq, Repr, Inhabited

namespace Document

def change (d : Document) (line : Nat) (path : List String)
    (f : Fields → Except Conflict Fields) : Except ConflictAt Document :=
  match d.fields.update line f path with
  | .ok fields => .ok { d with fields }
  | .error e => .error ⟨line, e⟩

def step (d : Document) : Event → Except ConflictAt Document
  | .badText line => .error ⟨line, .badText⟩
  | .pair key v line => d.change line d.current (Fields.addValue line key v)
  | .header array path text line => do
    let last := path.getLastD ""
    let d ← d.change line path.dropLast
      (if array then Fields.addElement line text last else Fields.addTable line true text last)
    return { d with current := path }
  | .openTable element key line => do
    let next ← d.change line d.current
      (if element then Fields.addElement line key key else Fields.addTable line false key key)
    return { next with current := d.current ++ [key], outer := d.current :: d.outer }
  | .closeTable =>
    return { d with current := d.outer.headD [], outer := d.outer.tail }

def ofEvents (events : List Event) : Except ConflictAt Fields := do
  return (← events.foldlM step {}).fields

end Document

end Toml

end SsaIr
