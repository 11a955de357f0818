import RuleRegistry.Proofs.ExtensionCalls
import RuleRegistry.Proofs.NameResolution

namespace RuleRegistry

open Outcome

/-- What the function gives does not depend on the variables around its call. -/
def Function.IgnoresScope (f : Function) : Prop :=
  ∀ ctx ctx' args, f.call ctx args = f.call ctx' args

/-- Two environments of functions and variables that an expression cannot tell apart. -/
structure Expr.Alike (functions functions' : Entries Function) (ctx ctx' : Context) (e : Expr) :
    Prop where
  roots : ∀ root, e.RefersTo (.variable root) →
    Entries.find? ctx.entries root = Entries.find? ctx'.entries root
  callees : ∀ callee, e.RefersTo (.function callee) →
    Entries.find? functions callee = Entries.find? functions' callee
  scopeless : ∀ callee f, Entries.find? functions callee = some f → f.IgnoresScope

namespace Expr

variable {functions functions' : Entries Function} {ctx ctx' : Context}

theorem Alike.part {part e : Expr} (h : Alike functions functions' ctx ctx' e)
    (lift : ∀ {inner}, Within inner part → Within inner e) :
    Alike functions functions' ctx ctx' part where
  roots root refers := h.roots root (refers.of_within lift)
  callees callee refers := h.callees callee (refers.of_within lift)
  scopeless := h.scopeless

mutual

theorem eval_alike (e : Expr) (h : Alike functions functions' ctx ctx' e) :
    e.eval functions ctx = e.eval functions' ctx' := by
  match e with
  | literal v => rfl
  | array items =>
    rw [eval, eval, evalAll_alike items fun e inside => h.part (.item inside)]
  | name root keys =>
    have found := h.roots root ⟨keys, .self _⟩
    rw [eval, eval, Context.lookup, Context.lookup, found]
  | unary op operand => rw [eval, eval, eval_alike operand (h.part .operand)]
  | binary op left right =>
    rw [eval, eval, eval_alike left (h.part .left), eval_alike right (h.part .right)]
  | call function args =>
    have values := evalAll_alike args fun e inside => h.part (.argument inside)
    have found := h.callees function ⟨args, .self _⟩
    rw [eval, eval, ← found, values]
    cases known : Entries.find? functions function with
    | none => rfl
    | some f => exact congrArg _ (funext (h.scopeless function f known ctx ctx'))

theorem evalAll_alike (items : List Expr) (h : ∀ e ∈ items, Alike functions functions' ctx ctx' e) :
    evalAll functions ctx items = evalAll functions' ctx' items := by
  match items with
  | [] => rfl
  | e :: rest =>
    obtain ⟨first, others⟩ := List.forall_mem_cons.mp h
    rw [evalAll, evalAll, eval_alike e first, evalAll_alike rest others]

end

end Expr

namespace Language

open Expr

variable {l l' : Language} {ctx ctx' : Context} {source : String}

/-- Checking goes over the same references in the same order, so it reports the same one. -/
theorem check_alike {e : Expr} (h : Alike l.functions l'.functions ctx ctx' e) :
    l.check ctx.names e = l'.check ctx'.names e := by
  have refused : e.references.findSome? (l.refusal? ctx.names) =
      e.references.findSome? (l'.refusal? ctx'.names) := findSome?_congr fun r mem => by
    have refers := mem_references_iff.mp mem
    cases r with
    | «variable» root =>
      have bound : root ∈ ctx.names ↔ root ∈ ctx'.names := by
        rw [Context.names, Context.names, ← Decidable.not_iff_not, ← Entries.find?_eq_none_iff,
          ← Entries.find?_eq_none_iff, h.roots root refers]
      simp only [refusal?, bound]
    | function callee => rw [refusal?, refusal?, Entries.has, Entries.has, h.callees callee refers]
  rw [check, check, refused]

theorem evaluate_alike (h : ∀ e, Expr.parse source = .ok e →
      Alike l.functions l'.functions ctx ctx' e) :
    (l.evaluate [] source ctx).1 = (l'.evaluate [] source ctx').1 := by
  rw [evaluate_fst, evaluate_fst, parse_empty, parse_empty, parseFresh, parseFresh]
  cases parsed : Expr.parse source with
  | error err => rfl
  | ok e =>
    have alike := h e parsed
    simp only [Except.bind, check_alike alike]
    cases l'.check ctx'.names e with
    | error err => rfl
    | ok _ => exact eval_alike e alike

end Language

namespace Evaluator

variable {ev : Evaluator} {source : String}

theorem evaluate_of_agreement
    (scopeless : ∀ callee f, ev.language.function? callee = some f → f.IgnoresScope)
    {ctx ctx' : Context} (maps : (Entries.keys ctx.entries).Nodup)
    (maps' : (Entries.keys ctx'.entries).Nodup)
    (agree : ∀ e, Expr.parse source = .ok e → ∀ root, e.RefersTo (.variable root) →
      Entries.find? ctx.entries root = Entries.find? ctx'.entries root) :
    (ev.evaluate [] source ctx).1 = (ev.evaluate [] source ctx').1 := by
  refine Language.evaluate_alike fun e parsed => ⟨fun root refers => ?_, fun _ _ => rfl, scopeless⟩
  rw [find?_merged maps, find?_merged maps', agree e parsed root refers]

theorem function?_register {x : Extension} {callee : String} (new : callee ∉ x.functions) :
    (ev.register x).2.language.function? callee = ev.language.function? callee := by
  by_cases taken : x.name ∈ Entries.keys ev.extensions
  · rw [register_of_taken taken]
  · have unnamed : Entries.find? ((x.functions.map x.function).map fun g => (g.name, g)).reverse callee =
        none := by
      rw [Entries.find?_eq_none_iff]
      simpa [Entries.keys, Function.comp_def, Extension.function] using new
    rw [register_of_new taken, Language.function?, Language.function?, putAll_foldl,
      Entries.find?_putAll, unnamed, Option.none_or]

theorem find?_globals_register {x : Extension} {key : String} (other : key ≠ engineGlobal)
    (new : key ∉ Entries.keys x.globals) :
    Entries.find? (ev.register x).2.globals key = Entries.find? ev.globals key := by
  by_cases taken : x.name ∈ Entries.keys ev.extensions
  · rw [register_of_taken taken]
  · rw [register_of_new taken, find?_globals, find?_globals, if_neg other, if_neg other,
      List.findSome?_append]
    simp [(Entries.find?_eq_none_iff _ _).mpr new]

theorem evaluate_register
    (scopeless : ∀ callee f, ev.language.function? callee = some f → f.IgnoresScope)
    {x : Extension} {ctx : Context}
    (apart : ∀ e, Expr.parse source = .ok e →
      (∀ root, e.RefersTo (.variable root) → root ≠ engineGlobal ∧ root ∉ Entries.keys x.globals) ∧
        ∀ callee, e.RefersTo (.function callee) → callee ∉ x.functions) :
    ((ev.register x).2.evaluate [] source ctx).1 = (ev.evaluate [] source ctx).1 := by
  refine (Language.evaluate_alike fun e parsed => ?_).symm
  obtain ⟨roots, callees⟩ := apart e parsed
  refine ⟨fun root refers => ?_, fun callee refers => (function?_register (callees callee refers)).symm,
    scopeless⟩
  obtain ⟨other, new⟩ := roots root refers
  rw [Context.merge, Context.merge, Entries.find?_putAll, Entries.find?_putAll,
    find?_globals_register other new]

/-- A text evaluates alike in contexts that have the same variables under the roots that it mentions,
and with or without an extension that it mentions nothing of. -/
theorem evaluate_of_mentions
    (scopeless : ∀ callee f, ev.language.function? callee = some f → f.IgnoresScope)
    (source : String) :
    (∀ ctx ctx' : Context, (Entries.keys ctx.entries).Nodup → (Entries.keys ctx'.entries).Nodup →
      (∀ e, Expr.parse source = .ok e → ∀ root, e.RefersTo (.variable root) →
        Entries.find? ctx.entries root = Entries.find? ctx'.entries root) →
          (ev.evaluate [] source ctx).1 = (ev.evaluate [] source ctx').1) ∧
    ∀ (x : Extension) (ctx : Context), (∀ e, Expr.parse source = .ok e →
      (∀ root, e.RefersTo (.variable root) → root ≠ engineGlobal ∧ root ∉ Entries.keys x.globals) ∧
        ∀ callee, e.RefersTo (.function callee) → callee ∉ x.functions) →
          ((ev.register x).2.evaluate [] source ctx).1 = (ev.evaluate [] source ctx).1 :=
  ⟨fun _ _ maps maps' agree => evaluate_of_agreement scopeless maps maps' agree,
    fun _ _ apart => evaluate_register scopeless apart⟩

def listing : Evaluator := ({} : Evaluator).addFunction (.simple "f" fun args => .ok (.list args))

/-- A variable with a key, the rest in another order and under names that are no words, and an extension
with a function and a global that are not mentioned. -/
theorem evaluate_of_mentions_listing :
    (listing.evaluate [] "z or f(x.y)" ⟨[("x", .map [("y", .int 4)]), ("z", .null), ("v", .int 1)]⟩).1 =
      (listing.evaluate [] "z or f(x.y)" ⟨[("a.b,", .null), ("z", .null), ("x", .map [("y", .int 4)])]⟩).1 ∧
    ((listing.register { quotedSample with functions := ["g"], globals := [("w", .null)] }).2.evaluate []
        "z or f(x.y)" ⟨[("x", .int 4)]⟩).1 =
      (listing.evaluate [] "z or f(x.y)" ⟨[("x", .int 4)]⟩).1 := by
  have read : Expr.parse "z or f(x.y)" =
      .ok (.binary .or (.name "z" []) (.call "f" [.name "x" ["y"]])) := by cbv
  have scopeless : ∀ callee f, listing.language.function? callee = some f → f.IgnoresScope := by
    intro callee f found
    obtain rfl : f = .simple "f" fun args => .ok (.list args) := by
      rw [Language.function?, listing, addFunction] at found
      simpa [Language.addFunction, Entries.put, Entries.find?, eq_comm] using
        congrArg Prod.snd (List.mem_singleton.mp (Entries.mem_of_find? found))
    exact fun _ _ _ => rfl
  obtain ⟨contexts, extended⟩ := evaluate_of_mentions scopeless "z or f(x.y)"
  constructor
  · refine contexts _ _ (by decide) (by decide) fun e parsed root refers => ?_
    rw [read] at parsed
    cases parsed
    have mem := Expr.mem_references_iff.mpr refers
    simp [Expr.references, Expr.referencesAll] at mem
    rcases mem with rfl | rfl <;> rfl
  · refine extended _ _ fun e parsed => ⟨fun root refers => ?_, fun callee refers => ?_⟩
    all_goals
      rw [read] at parsed
      cases parsed
      have mem := Expr.mem_references_iff.mpr refers
      simp [Expr.references, Expr.referencesAll] at mem
    · rcases mem with rfl | rfl <;> decide
    · subst mem
      decide

end Evaluator

end RuleRegistry
