/-
  A compiled mark leaves the vertices that the mark leaves when it is run as written.

  The inputs of a specification are the globals of the file and the parameters of the mark,
  each under its own name: this is the layout in which the body of the mark starts. From
  there on compiled code follows the direct run, as long as no variable of the mark has the
  name of a global, and the functions that are called neither bind nor assign one.
-/
import DataMarks.Proofs.Inlining
import DataMarks.Proofs.Soundness

namespace DataMarks

open Dictionary List

namespace Direct

open Run

/-! ## Inputs -/

/-- The variables of inputs. -/
def inputVariables (inputs : Dictionary Input) : Dictionary Variable :=
  inputs.map fun e => (e.1, ⟨e.1, e.2.type, e.1⟩)

theorem get?_inputVariables (inputs : Dictionary Input) (x : String) :
    (inputVariables inputs).get? x = (inputs.get? x).map fun i => ⟨x, i.type, x⟩ :=
  get?_map (fun e : String × Input => (⟨e.1, e.2.type, e.1⟩ : Variable)) inputs x

/-- The cell of an input is for its entry: it has the input's type and a value. -/
structure IsCell (given : Dictionary Value) (e : String × Input) (c : String × Cell) : Prop where
  name : e.1 = c.1
  type : e.2.type = c.2.type
  value : ∃ v, (given.get? e.1 <|> e.2.default) = some v ∧ c.2.value = some v

section Inputs

variable {α : Type} {name : α → String} {type : α → Surface.TypeName} {default : α → Option Value}
  {given : Dictionary Value} {entries globals params : Dictionary Input}
variable {cells : Dictionary Cell}

theorem inputCells {as : List α}
    (hentries : Forall₂ (fun a e => IsInput (name a) (type a) (default a) e) as entries)
    (hcells : as.mapM (fun a => inputCell given (name a) (type a) (default a)) = some cells) :
    Forall₂ (IsCell given) entries cells := by
  induction hentries generalizing cells with
  | nil =>
    cases hcells
    exact .nil
  | @cons a e as entries he _ ih =>
    rw [mapM_cons] at hcells
    obtain ⟨c, hc, hcells⟩ := Option.bind_eq_some_iff.mp hcells
    obtain ⟨cs, hcs, hcells⟩ := Option.bind_eq_some_iff.mp hcells
    cases hcells
    refine .cons ?_ (ih hcs)
    unfold inputCell at hc
    obtain ⟨i, hi, hc⟩ := Option.bind_eq_some_iff.mp hc
    obtain ⟨v, hv, hc⟩ := Option.bind_eq_some_iff.mp hc
    cases hc
    rw [he.input] at hi
    cases hi
    rw [← he.name] at hv
    exact ⟨he.name, rfl, v, hv, rfl⟩

theorem bindInputs_of_cells (h : Forall₂ (IsCell given) entries cells) :
    ∃ env, Specification.bindInputs given entries = .ok env := by
  induction h with
  | nil => exact ⟨[], rfl⟩
  | @cons e c entries cells hec _ ih =>
    obtain ⟨x, input⟩ := e
    obtain ⟨v, hv, -⟩ := hec.value
    obtain ⟨env, henv⟩ := ih
    refine ⟨(x, v) :: env, ?_⟩
    unfold Specification.bindInputs
    rw [show (given.get? x <|> input.default) = some v from hv, henv]
    rfl

/-- Inputs that are bound have the values of their cells. -/
theorem frameHolds_inputs {inputs : Dictionary Input} {env : Env}
    (hinputs : ∀ e ∈ entries, inputs.get? e.1 = some e.2)
    (henv : Specification.bindInputs given inputs = .ok env)
    (h : Forall₂ (IsCell given) entries cells) :
    FrameHolds env (inputVariables entries) cells := by
  have hcells : Forall₂ (fun a b => a.1 = b.1 ∧ CellHolds env a.2 b.2)
      (inputVariables entries) cells := by
    unfold inputVariables
    induction h with
    | nil => exact .nil
    | @cons e c entries cells hec _ ih =>
      obtain ⟨hfirst, hrest⟩ := forall_mem_cons.mp hinputs
      obtain ⟨v, hv, hvalue⟩ := hec.value
      refine .cons ⟨hec.name, hec.type, ?_⟩ (ih hrest)
      intro w hw
      rw [hvalue] at hw
      cases hw
      rw [Specification.get?_of_bindInputs henv, hfirst]
      exact hv
  exact fun x => Overload.lookup_related hcells x

theorem globals_of_param {x : String} {i : Input} (hnodup : (globals ++ params).keys.Nodup)
    (h : params.get? x = some i) : globals.get? x = none := by
  rw [Dictionary.keys, map_append, nodup_append] at hnodup
  cases hglobal : globals.get? x with
  | none => rfl
  | some j =>
    refine absurd rfl (hnodup.2.2 x ?_ x ?_)
    · exact mem_keys_of_get? hglobal
    · exact mem_keys_of_get? h

/-- In the scope of the inputs, the globals and the parameters are found under their own names. -/
theorem fits_inputs {scope : Scope} (h : InputScope scope (globals ++ params)) :
    Layout.Fits ⟨inputVariables globals, [inputVariables params]⟩ scope := by
  -- What a variable of either part says about the inputs as a whole.
  have hglobal : ∀ {x v}, (inputVariables globals).get? x = some v →
      ∃ i, globals.get? x = some i ∧ v = ⟨x, i.type, x⟩ ∧ (globals ++ params).get? x = some i := by
    intro x v hv
    rw [get?_inputVariables] at hv
    obtain ⟨i, hi, rfl⟩ := Option.map_eq_some_iff.mp hv
    exact ⟨i, hi, rfl, by rw [get?_append, hi]; rfl⟩
  have hparam : ∀ {x v}, (inputVariables params).get? x = some v →
      ∃ i, globals.get? x = none ∧ v = ⟨x, i.type, x⟩ ∧ (globals ++ params).get? x = some i := by
    intro x v hv
    rw [get?_inputVariables] at hv
    obtain ⟨i, hi, rfl⟩ := Option.map_eq_some_iff.mp hv
    have hnone := globals_of_param h.nodup hi
    exact ⟨i, hnone, rfl, by rw [get?_append, hnone, hi]; rfl⟩
  have hlookup : ∀ {x i}, (globals ++ params).get? x = some i →
      Scope.lookup scope.outermost scope.inner x = some ⟨x, i.type, x⟩ := by
    intro x i hi
    rw [h.inner, Scope.lookup, h.get?_vars, hi]
    rfl
  have hissued : ∀ {x i}, (globals ++ params).get? x = some i → x ∈ scope.issued.keys := by
    intro x i hi
    rw [mem_keys_iff, h.get?_issued, hi]
    rfl
  have hshown : ∀ x v, (inputVariables globals).get? x = some v →
      Scope.lookup scope.outermost scope.inner x = some v := by
    intro x v hv
    obtain ⟨i, -, rfl, hi⟩ := hglobal hv
    exact hlookup hi
  exact {
    frames := cons_ne_nil _ _
    shows := by
      refine ⟨?_, hshown, True.intro⟩
      intro x v hv
      rcases Store.findIn_cases hv with hv | ⟨f, hf, hv⟩
      · exact hshown x v hv
      · obtain rfl := mem_singleton.mp hf
        obtain ⟨i, -, rfl, hi⟩ := hparam hv
        exact hlookup hi
    owned := by
      refine ⟨fun x => if globals.contains x then some (0, x) else some (1, x), ?_, ?_⟩
      · intro x v hv
        obtain ⟨i, hnone, rfl, -⟩ := hparam hv
        exact if_neg (by rw [Dictionary.contains, hnone]; exact Bool.false_ne_true)
      · intro x v hv
        obtain ⟨i, hi, rfl, -⟩ := hglobal hv
        exact if_pos (by rw [Dictionary.contains, hi]; rfl)
    issued := by
      rintro v (⟨x, hv⟩ | ⟨f, hf, x, hv⟩)
      · obtain ⟨i, -, rfl, hi⟩ := hglobal hv
        exact hissued hi
      · obtain rfl := mem_singleton.mp hf
        obtain ⟨i, -, rfl, hi⟩ := hparam hv
        exact hissued hi }

end Inputs

/-! ## Marks -/

theorem keys_inputVariables {gs : List Surface.Global} {globals : Dictionary Input}
    (h : Forall₂ (fun g e => IsInput g.name g.type g.default e) gs globals) :
    (inputVariables globals).keys = gs.map Surface.Global.name := by
  rw [← IsInput.keys_of_forall₂ h, inputVariables, Dictionary.keys, map_map]
  rfl

/-- What code does that simulates a direct run, its specification evaluates to. -/
theorem Simulates.vertices {α : Type} {P : Definition → Prop} {o : Except EvalError Outcome}
    {post : α → Store Cell → Env → Prop} {r : Result α} (h : Simulates P o post r)
    (hcalled : ∀ d ∈ r.called, P d) {vs : List Vertex} (hvs : r.vertices? = some vs) :
    ∃ outcome, o = .ok outcome ∧ outcome.vertices = vs := by
  cases r with
  | done a s trace =>
    obtain ⟨env, ho, -⟩ := h hcalled
    cases hvs
    exact ⟨_, ho, rfl⟩
  | discarded trace =>
    cases hvs
    exact ⟨_, h hcalled, rfl⟩
  | stuck => cases hvs

/-- The code of a mark does what the mark does, on inputs that have all they need. -/
theorem functionWithin_simulates {levels : Nat} {f : Surface.Function} {s s' : Compiler}
    {spec : Specification} {code : List Stmt}
    (h : Compile.Runs (Compile.functionWithin levels f) s spec s' code)
    (hlocals : ∀ x ∈ f.locals, x ∉ s.globals.map Surface.Global.name)
    {given : Dictionary Value} {store : Store Cell}
    (hstore : inputStore s.globals f.params given = some store) (depth : Nat) :
    ∃ env, Specification.bindInputs given spec.inputs = .ok env ∧
      Simulates (fun d => d.function.Avoids (s.globals.map Surface.Global.name))
        (Stmt.runAll spec.statements env) (fun _ _ _ => True)
        (inFrame (stmts (invoke depth) s.resolver f.body) store) := by
  obtain ⟨globals, params, s₁, s₂, statements, hglobals, hparams, hscope, hs₁, hbody, rfl, -⟩ :=
    Compile.runs_functionWithin h
  obtain ⟨s₃, hstmts, -⟩ := Compile.runs_inFrame_iff.mp hbody
  obtain ⟨globalCells, hglobalCells, hstore⟩ := Option.bind_eq_some_iff.mp hstore
  obtain ⟨paramCells, hparamCells, hstore⟩ := Option.bind_eq_some_iff.mp hstore
  cases hstore
  have hcells := inputCells hglobals hglobalCells
  have hcells' := inputCells hparams hparamCells
  obtain ⟨env, henv⟩ := bindInputs_of_cells (rel_append hcells hcells')
  refine ⟨env, henv, ?_⟩
  have hinputs : ∀ e ∈ globals ++ params, Dictionary.get? (globals ++ params) e.1 = some e.2 :=
    fun e he => get?_of_mem hscope.nodup he
  have hkeys := keys_inputVariables hglobals
  have hholds : Layout.Holds ⟨inputVariables globals, [inputVariables params]⟩ env
      ⟨globalCells, [paramCells]⟩ := {
    globals := frameHolds_inputs (fun e he => hinputs e (mem_append_left _ he)) henv hcells
    frames := .cons (frameHolds_inputs
      (fun e he => hinputs e (mem_append_right _ he)) henv hcells') .nil }
  have hplace : Guarded s.resolver (inputVariables globals) ([] :: [inputVariables params]) []
      (s₁.push []) env (Store.push ⟨globalCells, [paramCells]⟩) := {
    resolver := by
      rw [hs₁]
    inner := cons_ne_nil _ _
    fits := (fits_inputs hscope).push
    holds := hholds.push
    avoids := fun _ _ _ _ _ => not_mem_nil
    issued := nil_subset _ }
  have hpermitted : ∀ t ∈ Surface.Stmt.partsAll f.body,
      Permitted (inputVariables globals) [] t := by
    intro t ht
    refine ⟨fun x hx => ?_, fun _ _ _ _ => not_mem_nil⟩
    have hx := hlocals x (mem_flatMap.mpr ⟨t, ht, hx⟩)
    rwa [← hkeys, not_mem_keys_iff] at hx
  have hrun := stmts_proceed (follows_expander levels depth) f.body hpermitted hplace hstmts
  unfold Spares at hrun
  rw [hkeys] at hrun
  exact Simulates.inFrame (hrun.mono fun _ _ _ _ => True.intro)

end Direct

/-- The specification of a mark emits what the mark emits when it is run as written. Variables of
the mark have no names of globals, and functions that are called neither bind nor assign a
global. -/
theorem Surface.File.evaluate_compile {file : File} {specs : Dictionary Specification}
    (hcompile : file.compile = .ok specs) {name : String} {f : Function}
    (hf : file.renderable? name = some f)
    (hlocals : ∀ x ∈ f.locals, x ∉ file.globals.map Global.name)
    {given : Dictionary Value} {depth : Nat}
    (hcalled : ∀ d ∈ (Direct.run depth file f given).called,
      d.function.Avoids (file.globals.map Global.name))
    {vs : List Vertex} (hvs : (Direct.run depth file f given).vertices? = some vs) :
    ∃ spec, specs.get? name = some spec ∧ spec.evaluate given = .ok vs := by
  obtain ⟨spec, s, s', code, hspec, hresolver, hglobals, hrun⟩ :=
    (File.compiles hcompile).some name f hf
  refine ⟨spec, hspec, ?_⟩
  unfold Direct.run at hvs hcalled
  cases hstore : Direct.inputStore file.globals f.params given with
  | none =>
    rw [hstore] at hvs
    cases hvs
  | some store =>
    rw [hstore] at hvs hcalled
    rw [← hglobals] at hlocals hstore
    obtain ⟨env, henv, hsimulates⟩ := Direct.functionWithin_simulates hrun hlocals hstore depth
    rw [hresolver, hglobals] at hsimulates
    obtain ⟨outcome, hstatements, rfl⟩ := hsimulates.vertices hcalled hvs
    unfold Specification.evaluate
    rw [henv]
    show (Stmt.runAll spec.statements env >>= fun o => pure o.vertices) = _
    rw [hstatements]
    rfl

/-- A mark that calls functions in rounds of a loop and in branches. One function assigns its
parameter and has a variable of the same name in an inner block; the mark has that name too, and it
assigns the global that the functions read. -/
def rings : String := "
global scale: float = 2;

function grown(x: float, rounds: int = 1): float {
    let y = x;
    for (i in 1..2) {
        let y = rounds + i;
        x = x + y;
    }
    x = x * scale;
    return x + y;
}

mark ring(size: float) {
    emit { radius: size, width: grown(size) };
}

mark rings(count: int = 3) {
    let x = count;
    for (i in 0..2) {
        let x = grown(i, rounds = count);
        if (x > 15 && scale < 5) ring(size = x); else emit { radius: x, width: 0.5 };
    }
    x = x + 1;
    scale = scale + x;
    ring(x);
}
"

/-- What the mark emits if there are two rings. -/
def ringVertices : List Vertex :=
  [(14, 0.5), (17, 61), (20, 70), (3, 43)].map fun (radius, width) =>
    [("radius", .scalar radius), ("width", .scalar width)]

theorem run_rings : ((Surface.File.read? 0 rings.utf8ByteSize rings.toList).any fun r =>
    (r.1.renderable? "rings").any fun f => decide (
      (∀ x ∈ f.locals, x ∉ r.1.globals.map Surface.Global.name) ∧
      (∀ d ∈ (Direct.run 3 r.1 f [("count", .scalar 2)]).called,
        d.function.Avoids (r.1.globals.map Surface.Global.name)) ∧
      (Direct.run 3 r.1 f [("count", .scalar 2)]).vertices? = some ringVertices)) = true := by
  rw [rings, String.toList_ofList]
  decide +kernel

theorem Surface.File.evaluate_compile_rings : ∃ file specs f spec,
    File.parse 0 rings = .ok file ∧ file.compile = .ok specs ∧
    file.renderable? "rings" = some f ∧
    (∀ x ∈ f.locals, x ∉ file.globals.map Global.name) ∧
    (∀ d ∈ (Direct.run 3 file f [("count", .scalar 2)]).called,
      d.function.Avoids (file.globals.map Global.name)) ∧
    (Direct.run 3 file f [("count", .scalar 2)]).vertices? = some ringVertices ∧
    specs.get? "rings" = some spec ∧
    spec.evaluate [("count", .scalar 2)] = .ok ringVertices := by
  obtain ⟨⟨file, specs⟩, hread, hmark⟩ := (Option.any_eq_true _ _).mp run_rings
  obtain ⟨f, hf, hchecked⟩ := (Option.any_eq_true _ _).mp hmark
  obtain ⟨hlocals, hcalled, hvertices⟩ := of_decide_eq_true hchecked
  obtain ⟨hparse, hcompile⟩ := File.of_read? hread
  obtain ⟨spec, hspec, heval⟩ := evaluate_compile hcompile hf hlocals hcalled hvertices
  exact ⟨file, specs, f, spec, hparse, hcompile, hf, hlocals, hcalled, hvertices, hspec, heval⟩

end DataMarks
