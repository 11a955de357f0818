import RuleRegistry.Proofs.EvaluatorHistory
import RuleRegistry.Proofs.Reparse

namespace RuleRegistry

open Outcome

namespace Expr

theorem evalAll_eq (functions : Entries Function) (ctx : Context) (items : List Expr) :
    evalAll functions ctx items = items.mapM (eval functions ctx) := by
  induction items with
  | nil => rfl
  | cons e rest ih =>
    rw [evalAll, List.mapM_cons, ih]
    rfl

theorem compileAll_eq (functions : Entries Function) (items : List Expr) :
    compileAll functions items = items.mapM (compile functions) := by
  induction items with
  | nil => rfl
  | cons e rest ih =>
    rw [compileAll, List.mapM_cons, ih]
    rfl

theorem parse_quote (s : String) : parse (Text.quote s) = .ok (.literal (.string s)) := by
  have spelled : String.ofList (spell (.literal (.string s))) = Text.quote s := by
    simp [spell, Value.text]
  have read := parse_spell (.string s) (by simp [literals])
  rwa [spelled] at read

end Expr

namespace Language

variable {l : Language} {store : ParseStore} {source f : String} {args : List Expr}

/-- A call of a function that is there is refused for its arguments only. -/
theorem check_call (known : Entries.has l.functions f = true) (names : List String) :
    l.check names (.call f args) = l.check names (.array args) := by
  have allowed : l.refusal? names (.function f) = none := if_pos known
  rw [check, check, Expr.references, Expr.references, List.findSome?_cons, allowed]

theorem Sound.compile_call (sound : l.Sound store) (read : Expr.parse source = .ok (.call f args))
    {g : Function} (found : l.function? f = some g) (names : List String) :
    (∃ texts, args.mapM (Expr.compile l.functions) = .ok texts ∧
      (l.compile store source names).1 = .ok (g.compile texts)) ∨
        ∃ err, l.check names (.array args) = .error err ∧
          (l.compile store source names).1 = .error err := by
  have known : Entries.has l.functions f = true := Option.isSome_iff_exists.mpr ⟨g, found⟩
  rw [compile_fst]
  rcases sound.tree read names with ⟨p, parsed, tree, registered⟩ | ⟨err, refused, parsed⟩
  · have printable : error? (Expr.compileAll l.functions args) = none := by
      rw [Expr.error?_compileAll]
      refine List.findSome?_eq_none_iff.mpr fun r mem => ?_
      cases r with
      | «variable» root => rfl
      | function callee => exact if_pos (registered callee (List.mem_cons_of_mem _ mem))
    obtain ⟨texts, printed⟩ := error?_none_iff.mp printable
    refine .inl ⟨texts, Expr.compileAll_eq _ _ ▸ printed, ?_⟩
    rw [function?] at found
    rw [parsed, Except.bind, tree, Expr.compile, found, printed]
    rfl
  · rw [check_call known] at refused
    exact .inr ⟨err, refused, by rw [parsed]; rfl⟩

theorem Sound.evaluate_call (sound : l.Sound store) (read : Expr.parse source = .ok (.call f args))
    {g : Function} (found : l.function? f = some g) (ctx : Context) :
    (l.evaluate store source ctx).1 = (args.mapM (Expr.eval l.functions ctx)).bind (g.call ctx) ∨
      ∃ err, l.check ctx.names (.array args) = .error err ∧
        (l.evaluate store source ctx).1 = .error err := by
  have known : Entries.has l.functions f = true := Option.isSome_iff_exists.mpr ⟨g, found⟩
  rw [evaluate_fst]
  rcases sound.tree read ctx.names with ⟨p, parsed, tree, _⟩ | ⟨err, refused, parsed⟩
  · rw [function?] at found
    rw [parsed, Except.bind, tree, Expr.eval, found, ← Expr.evalAll_eq]
    exact .inl rfl
  · rw [check_call known] at refused
    exact .inr ⟨err, refused, by rw [parsed]; rfl⟩

end Language

namespace Evaluator

variable {ev : Evaluator} {store : ParseStore} {x : Extension} {f : String} {taken : List String}
  {calls : List Call}

/-- What a function was registered by: on its own, or by an extension under this name. -/
inductive Binding where
  | function (g : Function)
  | extension (x : Extension) (name : String)

def Binding.made : Binding → Function
  | .function g => g
  | .extension x name => x.function name

/-- The bindings that calls make, in order, where extensions of the taken names are ignored. -/
def bindings (taken : List String) : List Call → List Binding
  | [] => []
  | .extend x :: rest =>
    if x.name ∈ taken then bindings taken rest
    else x.functions.map (.extension x) ++ bindings (taken ++ [x.name]) rest
  | .language (.addFunction g) :: rest => .function g :: bindings taken rest
  | .language (.register name compile call) :: rest =>
    .function ⟨name, compile, call⟩ :: bindings taken rest
  | _ :: rest => bindings taken rest

def lastBinding (f : String) (calls : List Call) : Option Binding :=
  (bindings [] calls).reverse.find? fun b => b.made.name == f

theorem bindings_cons (taken : List String) (call : Call) (rest : List Call) :
    bindings taken (call :: rest) =
      bindings taken [call] ++ bindings (taken ++ (firsts taken [call]).map Extension.name) rest := by
  cases call with
  | extend x =>
    by_cases known : x.name ∈ taken
    · simp [bindings, firsts, known]
    · simp [bindings, firsts, known]
  | language call => cases call <;> simp [bindings, firsts]
  | _ => simp [bindings, firsts]

theorem putAll_foldl (l : Language) (gs : List Function) :
    (gs.foldl Language.addFunction l).functions =
      Entries.putAll l.functions (gs.map fun g => (g.name, g)) := by
  induction gs generalizing l with
  | nil => rfl
  | cons g rest ih => exact ih (l.addFunction g)

theorem functions_perform (ev : Evaluator) (store : ParseStore) (call : Call) :
    (ev.perform store call).2.1.language.functions = Entries.putAll ev.language.functions
      ((bindings (Entries.keys ev.extensions) [call]).map fun b => (b.made.name, b.made)) := by
  cases call with
  | extend x =>
    by_cases known : x.name ∈ Entries.keys ev.extensions
    · simp [perform, register_of_taken known, bindings, known, Entries.putAll]
    · simp [perform, register_of_new known, bindings, known, putAll_foldl, Binding.made,
        Function.comp_def]
  | language call => cases call <;> rfl
  | _ => rfl

theorem functions_run (ev : Evaluator) (store : ParseStore) (calls : List Call) :
    (ev.run store calls).2.1.language.functions = Entries.putAll ev.language.functions
      ((bindings (Entries.keys ev.extensions) calls).map fun b => (b.made.name, b.made)) := by
  induction calls generalizing ev store with
  | nil => rfl
  | cons call rest ih =>
    rw [run, ih, bindings_cons, extensions_perform, functions_perform]
    simp [Entries.putAll, Entries.keys, Function.comp_def, List.foldl_append]

theorem function?_of_new (calls : List Call) (f : String) :
    (run {} [] calls).2.1.language.function? f = (lastBinding f calls).map Binding.made := by
  rw [Language.function?, functions_run, Entries.find?_putAll, ← List.map_reverse, Entries.find?_map]
  exact Option.or_none

theorem first_of_binding {name : String} (made : .extension x name ∈ bindings taken calls) :
    x ∈ firsts taken calls := by
  induction calls generalizing taken with
  | nil => cases made
  | cons call rest ih =>
    rw [bindings_cons, List.mem_append] at made
    rw [firsts_cons, List.mem_append]
    refine made.imp (fun now => ?_) ih
    cases call with
    | extend y =>
      by_cases known : y.name ∈ taken
      · simp [bindings, known] at now
      · simp only [bindings, if_neg known, List.append_nil, List.mem_map] at now
        obtain ⟨_, _, same⟩ := now
        cases same
        simp [firsts, known]
    | language call => cases call <;> simp [bindings] at now
    | _ => cases now

theorem of_lastBinding {name : String} (last : lastBinding f calls = some (.extension x name)) :
    name = f ∧ x ∈ firsts [] calls := by
  have bound := List.find?_some last
  have listed := List.mem_reverse.mp (List.mem_of_find?_eq_some last)
  exact ⟨eq_of_beq bound, first_of_binding listed⟩

/-- A call of the function is one on this extension. It is printed with the name as a text that reads
back as the name, and evaluated by the extension on the values of the arguments in order; an argument
that is refused or that fails comes first. -/
structure CallsOn (ev : Evaluator) (store : ParseStore) (f : String) (x : Extension) : Prop where
  found : ev.extension? x.name = some x
  quoted : Expr.parse (Text.quote x.name) = .ok (.literal (.string x.name))
  compiled : ∀ source args names, Expr.parse source = .ok (.call f args) →
    (∃ texts, args.mapM (Expr.compile ev.language.functions) = .ok texts ∧
      (ev.compile store source names).1 = .ok ("__rulebook.getExtension(" ++ Text.quote x.name ++ ")." ++
        f ++ "(" ++ ", ".intercalate texts ++ ")")) ∨
      ∃ err, ev.language.check (ev.allowedNames names) (.array args) = .error err ∧
        (ev.compile store source names).1 = .error err
  evaluated : ∀ source args ctx, Expr.parse source = .ok (.call f args) →
    let merged := (Context.mk ev.globals).merge ctx
    (ev.evaluate store source ctx).1 =
        (args.mapM (Expr.eval ev.language.functions merged)).bind (x.call f) ∨
      ∃ err, ev.language.check merged.names (.array args) = .error err ∧
        (ev.evaluate store source ctx).1 = .error err

theorem callsOn_of_function? (sound : ev.language.Sound store) (found : ev.extension? x.name = some x)
    (bound : ev.language.function? f = some (x.function f)) : CallsOn ev store f x where
  found := found
  quoted := Expr.parse_quote x.name
  compiled := fun _ _ names read => sound.compile_call read bound (ev.allowedNames names)
  evaluated := fun _ _ _ read => sound.evaluate_call read bound _

/-- After any history a function is bound to what bound it last, and where that is an extension its
calls are printed and evaluated as calls on this extension. -/
theorem calls_of_last_binding (calls : List Call) (f : String) :
    (run {} [] calls).2.1.language.function? f = (lastBinding f calls).map Binding.made ∧
      ∀ x name, lastBinding f calls = some (.extension x name) →
        CallsOn (run {} [] calls).2.1 (run {} [] calls).2.2 f x := by
  have bound := function?_of_new calls f
  refine ⟨bound, fun x name last => ?_⟩
  obtain ⟨rfl, first⟩ := of_lastBinding last
  rw [last] at bound
  exact callsOn_of_function? (sound_of_new calls) (extension?_of_new first) bound

def quotedSample : Extension where
  name := "a\"b\\"
  functions := ["f"]
  call := fun name args => .ok (.list (.string name :: args))

/-- A call is read while its function is registered on its own. Then an extension binds the function,
and another one under the same name is ignored. -/
def rebindings : List Call := [
  .language (.addFunction (.simple "f" fun _ => .ok .null)),
  .parse "f(1, x)" ["x"],
  .extend quotedSample,
  .extend { quotedSample with functions := ["f", "g"], call := fun _ _ => .ok .null }]

def reboundEvaluator : Evaluator := (run {} [] rebindings).2.1

def reboundStore : ParseStore := (run {} [] rebindings).2.2

theorem reboundEvaluator_eq : reboundEvaluator =
    ⟨⟨[("f", quotedSample.function "f")]⟩, [(quotedSample.name, quotedSample)]⟩ := by
  have parts (ev : Evaluator) : ev = ⟨⟨ev.language.functions⟩, ev.extensions⟩ := rfl
  rw [parts reboundEvaluator, reboundEvaluator, functions_run, extensions_of_new]
  rfl

theorem parse_rebound :
    Expr.parse "f(1, x)" = .ok (.call "f" [.literal (.int 1), .name "x" []]) := by
  have number : Expr.Readable (.literal (.int 1)) := .int (by decide)
  have name : Expr.Readable (.name "x" []) := .name (by decide) (by decide) (by decide) (by simp)
  have readable : Expr.Readable (.call "f" [.literal (.int 1), .name "x" []]) :=
    .call (by decide) rfl (by decide) (by simp [number, name])
  have spelled : String.ofList (Expr.spell (.call "f" [.literal (.int 1), .name "x" []])) = "f(1, x)" := by
    decide +kernel
  have read := Expr.parse_spell readable (by simp [Expr.literals, Expr.literalsAll])
  rwa [spelled] at read

theorem calls_of_last_binding_rebindings :
    (reboundEvaluator.compile reboundStore "f(1, x)" ["x"]).1 =
      .ok "__rulebook.getExtension(\"a\\\"b\\\\\").f(1, x)" ∧
    (reboundEvaluator.evaluate reboundStore "f(1, x)" ⟨[("x", .int 2)]⟩).1 =
      .ok (.list [.string "f", .int 1, .int 2]) ∧
    (reboundEvaluator.language.function? "g").isSome = false := by
  have calls : CallsOn reboundEvaluator reboundStore "f" quotedSample :=
    (calls_of_last_binding rebindings "f").2 quotedSample "f" rfl
  have unbound := (calls_of_last_binding rebindings "g").1
  rw [← reboundEvaluator] at unbound
  generalize reboundStore = store at calls ⊢
  rw [reboundEvaluator_eq] at calls unbound ⊢
  refine ⟨?_, ?_, by rw [unbound]; rfl⟩
  · rcases calls.compiled _ _ ["x"] parse_rebound with ⟨texts, printed, text⟩ | ⟨err, refused, _⟩
    · cases printed
      exact text
    · cases refused
  · rcases calls.evaluated _ _ ⟨[("x", .int 2)]⟩ parse_rebound with value | ⟨err, refused, _⟩
    · exact value
    · cases refused

end Evaluator

end RuleRegistry
