/-
  Marks: a specification with bindings for its inputs and data to draw.

  A drawing platform compiles a mark when it is first needed and keeps it. A new
  value of a uniform is sent to the compiled mark; any other change of a binding
  drops it. A call leaves a mark and requests to the platform in their order, also where it
  fails (`Change`).
-/
import DataMarks.Mark.Expansion

namespace DataMarks

variable {δ : Type}

/-- A copy of a mark with data and uniform values of its own. -/
structure Instance (δ : Type) where
  data : List δ
  attrs : Dictionary Value := []
  /-- Whether someone wants to know before the instance is drawn. -/
  notify : Bool := false

/-- Requests to a drawing platform. -/
inductive Event (δ : Type)
  | compile (prepared : Prepared δ) (shader : Specification)
  | uniform (name : String) (value : Value)
  | texture (name : String) (contents : Option Texture)
  | upload (datasets : List (List δ))
  /-- The start of drawing a number of datasets. -/
  | render (datasets : Nat)
  | notify (index : Nat)
  | draw (index : Nat)

/-- A mark as a platform has compiled it. -/
structure Live (δ : Type) where
  prepared : Prepared δ
  /-- The datasets on the platform; nothing if they are out of date. -/
  datasets : Option (List (List δ)) := none

structure Mark (δ : Type) where
  specification : Specification
  shader : Specification
  bindings : Dictionary (MarkBinding δ)
  shifts : Dictionary Shift
  data : List δ := []
  /-- Makes an instance of a datum, its index and all data. -/
  instance? : Option (δ → Nat → List δ → Instance δ) := none
  live : Option (Live δ) := none

/-- What a call gives, the mark that it leaves and what it asks of the platform. -/
structure Change (δ : Type) where
  result : Except BindingError Unit := .ok ()
  mark : Mark δ
  events : List (Event δ) := []

/-- The mark and the requests of a call that does not fail. -/
def Change.outcome (c : Change δ) : Except BindingError (Mark δ × List (Event δ)) :=
  c.result.map fun _ => (c.mark, c.events)

namespace Mark

/-- The inputs that take their value from a neighbour: their names end in a suffix after the
name of another input. -/
def neighbours (inputs : Dictionary Input) : Dictionary Shift :=
  Dictionary.ofEntries (inputs.keys.flatMap fun n =>
    (Shift.suffixes.filter fun (suffix, _) => inputs.contains (n ++ suffix)).map
      fun (suffix, offset) => (n ++ suffix, ⟨n, offset⟩))

/-- Bindings to the defaults of inputs. -/
def defaults (inputs : Dictionary Input) : Dictionary (MarkBinding δ) :=
  inputs.filterMap fun (n, i) => i.default.map fun v => (n, .plain ⟨i.type, .literal v⟩)

/-- A mark without data, with its inputs at their defaults. -/
def new (specification shader : Specification) : Mark δ :=
  { specification, shader
    bindings := defaults specification.inputs
    shifts := neighbours specification.inputs }

def isCompiled (m : Mark δ) : Bool := m.live.isSome

def input (m : Mark δ) (name : String) : Except BindingError Input :=
  match m.specification.inputs.get? name with
  | some i => .ok i
  | none => .error (.undefinedAttribute name)

def binding (m : Mark δ) (name : String) : Except BindingError (MarkBinding δ) :=
  m.bindings.find name

/-! ## Changes -/

def setBinding (m : Mark δ) (name : String) (b : MarkBinding δ) : Mark δ :=
  { m with bindings := m.bindings.insert name b, shifts := m.shifts.erase name }

def isScaled (m : Mark δ) (name : String) : Bool :=
  match m.bindings.get? name with
  | some (.scaled _) => true
  | _ => false

/-- Whether a compiled mark can take a source for `name` as it is. -/
def inPlace (m : Mark δ) (name : String) (source : Source δ) : Bool :=
  match m.live with
  | none => false
  | some live =>
    !m.isScaled name && !m.shifts.contains name && !source.isFunction
      && live.prepared.isUniform name

/-- The request that gives `name` a new value for all data. -/
def update (name : String) : Source δ → List (Event δ)
  | .literal v => [.uniform name v]
  | .texture t => [.texture name t]
  | .function _ => []

/-- The binding of an input to a source. A literal must have the shape of the input's type. -/
def plain (m : Mark δ) (name : String) (source : Source δ) : Except BindingError (Binding δ) := do
  let input ← m.input name
  match source.literal? with
  | some v =>
    if !input.type.accepts v then throw (.mismatchedValue name v input.type)
  | none => pure ()
  return ⟨input.type, source⟩

/-- Binds an input to a source. -/
def attr (m : Mark δ) (name : String) (source : Source δ) : Change δ :=
  match m.plain name source with
  | .error e => { result := .error e, mark := m }
  | .ok b =>
    let bound := m.setBinding name (.plain b)
    if m.inPlace name source then { mark := bound, events := update name source }
    else { mark := { bound with live := none } }

def bind (m : Mark δ) (name : String) (source : Source δ) :
    Except BindingError (Mark δ × List (Event δ)) :=
  (m.attr name source).outcome

/-- Binds an input to a scaling of its type. -/
def scale (m : Mark δ) (name : String) (s : Scaling δ) : Change δ :=
  match m.input name with
  | .error e => { result := .error e, mark := m }
  | .ok input =>
    if s.returns = input.type then { mark := { m.setBinding name (.scaled s) with live := none } }
    else { result := .error (.mismatchedScale name s.returns input.type), mark := m }

def bindScale (m : Mark δ) (name : String) (s : Scaling δ) : Except BindingError (Mark δ) :=
  (m.scale name s).outcome.map Prod.fst

/-- Leaves the compiled mark but not its data. -/
def outdate (m : Mark δ) : Mark δ :=
  { m with live := m.live.map fun l => { l with datasets := none } }

def setData (m : Mark δ) (data : List δ) : Mark δ := { m with data }.outdate

/-- Draws an instance for each datum from now on. -/
def setInstance (m : Mark δ) (f : δ → Nat → List δ → Instance δ) : Mark δ :=
  { m with instance? := some f }.outdate

/-! ## Drawing -/

/-- The specification with scales expanded. -/
def prepared (m : Mark δ) : Except BindingError (Prepared δ) :=
  m.specification.prepare m.bindings m.shifts

/-- The data of each instance, or all data if there are no instances. -/
def datasets (m : Mark δ) : List (List δ) :=
  match m.instance? with
  | none => [m.data]
  | some f => m.data.zipIdx.map fun (x, i) => (f x i m.data).data

/-- Compiles the mark unless that is done. -/
def compile (m : Mark δ) : Except BindingError (Live δ × List (Event δ)) :=
  match m.live with
  | some live => .ok (live, [])
  | none => do
    let p ← m.prepared
    return ({ prepared := p }, [.compile p m.shader])

/-- Puts the data on the platform unless they are there. -/
def upload (m : Mark δ) (live : Live δ) : List (List δ) × List (Event δ) :=
  match live.datasets with
  | some datasets => (datasets, [])
  | none => (m.datasets, [.upload m.datasets])

/-- Compiles what is not compiled and puts data on the platform that are not there. -/
def preparing (m : Mark δ) : Change δ :=
  match m.compile with
  | .error e => { result := .error e, mark := m }
  | .ok (live, compiling) =>
    let (datasets, uploading) := m.upload live
    { mark := { m with live := some { live with datasets := some datasets } }
      events := compiling ++ uploading }

def prepare (m : Mark δ) : Except BindingError (Mark δ × List (Event δ)) := m.preparing.outcome

/-- Gives an instance its own uniform values. -/
def instanceEvents (m : Mark δ) (index : Nat) : List (Event δ) :=
  match m.instance?, m.data[index]? with
  | some f, some x =>
    let i := f x index m.data
    i.attrs.map (fun (n, v) => .uniform n v) ++ if i.notify then [.notify index] else []
  | _, _ => []

/-- Gives the parameters of scales that all data share their values. -/
def scaleEvents (m : Mark δ) : List (Event δ) :=
  m.bindings.flatMap fun (n, b) =>
    match b with
    | .plain _ => []
    | .scaled s => s.parameters.flatMap fun p => update (n ++ p.name) p.source

/-- Draws a number of datasets one after the other. -/
def drawing (m : Mark δ) (count : Nat) : List (Event δ) :=
  .render count :: (List.range count).flatMap fun i =>
    m.instanceEvents i ++ m.scaleEvents ++ [.draw i]

/-- Prepares the mark and draws it. -/
def rendering (m : Mark δ) : Change δ :=
  let c := m.preparing
  match c.result with
  | .error _ => c
  | .ok () =>
    let count := ((c.mark.live.bind Live.datasets).getD []).length
    { c with events := c.events ++ c.mark.drawing count }

def render (m : Mark δ) : Except BindingError (Mark δ × List (Event δ)) := m.rendering.outcome

end Mark

end DataMarks
