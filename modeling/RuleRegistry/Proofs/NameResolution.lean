import RuleRegistry.Proofs.EvaluatorHistory
import RuleRegistry.Proofs.Reparse

namespace RuleRegistry

open Expr.Parser

theorem Expr.parse_word {x : String} (word : IsWord x.toList) (free : x ∉ reserved)
    (meant : literalWord? x = none) : parse x = .ok (.name x []) := by
  have not_not : x ≠ "not" := by
    rintro rfl
    exact free (by decide)
  have readable : Readable (.name x []) := .name word not_not (fun _ => ⟨meant, free⟩) (by simp)
  have spelled : String.ofList (spell (.name x [])) = x := by
    simp [spell, Text.dotted, Text.joinSegments]
  have read := parse_spell readable (by simp [literals])
  rwa [spelled] at read

namespace Language

variable {l : Language} {store : ParseStore} {x : String}

/-- Evaluating a word looks it up in the context, whatever the store holds. -/
theorem Sound.evaluate_word (sound : l.Sound store) (read : Expr.parse x = .ok (.name x []))
    (ctx : Context) : (l.evaluate store x ctx).1 = match Entries.find? ctx.entries x with
      | some v => .ok v
      | none => .error (.unknownVariable x) := by
  have looked : Expr.eval l.functions ctx (.name x []) = match Entries.find? ctx.entries x with
      | some v => .ok v
      | none => .error (.unknownVariable x) := by
    rw [Expr.eval, Context.lookup]
    cases Entries.find? ctx.entries x with
    | some v => simp [Value.at?]
    | none => simp [Text.dotted, Text.joinSegments]
  rw [evaluate_fst]
  rcases sound.tree read ctx.names with ⟨p, parsed, tree, _⟩ | ⟨err, refused, parsed⟩
  · rw [parsed, ← looked, ← tree]
    rfl
  · -- The word is refused only if it is not among the names, and it would not be found then.
    have unbound : x ∉ ctx.names := by
      intro bound
      have allowed : l.check ctx.names (.name x []) = .ok () :=
        check_ok_iff.mpr fun r mem => by
          obtain rfl := List.mem_singleton.mp mem
          exact if_pos bound
      rw [allowed] at refused
      cases refused
    have refusal : l.check ctx.names (.name x []) = .error (.unknownVariable x) := by
      simp [check, Expr.references, refusal?, unbound]
    rw [refusal] at refused
    cases refused
    rw [parsed, (Entries.find?_eq_none_iff _ _).mpr unbound]
    rfl

end Language

namespace Evaluator

variable {ev : Evaluator} {store : ParseStore} {x : String} {ctx : Context}

theorem find?_globals (ev : Evaluator) (key : String) :
    Entries.find? ev.globals key = if key = engineGlobal then some ev.selfValue
      else ev.extensions.findSome? fun x => Entries.find? x.2.globals key := by
  have each (xs : Entries Extension) (es : Entries Value) :
      Entries.find? (xs.foldl (fun acc x =>
          x.2.globals.foldl (fun acc g => Entries.putNew acc g.1 g.2) acc) es) key =
        (Entries.find? es key).or (xs.findSome? fun x => Entries.find? x.2.globals key) := by
    induction xs generalizing es with
    | nil => exact Option.or_none.symm
    | cons x rest ih =>
      rw [List.foldl_cons, ih, Entries.find?_putNew, List.findSome?_cons, Option.or_assoc]
      cases Entries.find? x.2.globals key <;> rfl
  rw [globals, each]
  by_cases own : key = engineGlobal
  · subst own
    simp [Entries.find?]
  · simp [Entries.find?, own, Ne.symm own]

theorem find?_merged (maps : (Entries.keys ctx.entries).Nodup) (ev : Evaluator) (key : String) :
    Entries.find? ((Context.mk ev.globals).merge ctx).entries key =
      (Entries.find? ctx.entries key).or (Entries.find? ev.globals key) := by
  rw [Context.merge, Entries.find?_putAll, Entries.find?_reverse maps]

/-- What a name stands for after extensions were registered in this order: the caller wins over all,
the description of the evaluator over the extensions, and an earlier extension over a later one. -/
def resolved (registered : List Extension) (ctx : Context) (x : String) : Except ExprError Value :=
  match Entries.find? ctx.entries x with
  | some v => .ok v
  | none =>
    if x = engineGlobal then
      .ok (.map [("extensions", .list (registered.map fun y => .string y.name))])
    else
      match registered.findSome? fun y => Entries.find? y.globals x with
      | some v => .ok v
      | none => .error (.unknownVariable x)

theorem evaluate_of_registered {registered : List Extension}
    (same : ev.extensions = registered.map fun y => (y.name, y)) (sound : ev.language.Sound store)
    (read : Expr.parse x = .ok (.name x [])) (maps : (Entries.keys ctx.entries).Nodup) :
    (ev.evaluate store x ctx).1 = resolved registered ctx x := by
  rw [evaluate, sound.evaluate_word read, find?_merged maps, find?_globals, selfValue, resolved, same]
  cases Entries.find? ctx.entries x with
  | some v => rfl
  | none =>
    by_cases own : x = engineGlobal
    · simp [own, Entries.keys, Function.comp_def]
    · simp [own, List.findSome?_map, Function.comp_def]

/-- After any history a word that can be a variable stands for what the extensions registered so far
make of it, and registering one more under a name that is taken changes nothing that comes later. -/
theorem name_resolution (calls : List Call) :
    (∀ x ctx, Expr.IsWord x.toList → x ∉ reserved → literalWord? x = none →
      (Entries.keys ctx.entries).Nodup →
        ((run {} [] calls).2.1.evaluate (run {} [] calls).2.2 x ctx).1 =
          resolved (firsts [] calls) ctx x) ∧
    ∀ y later, y.name ∈ (firsts [] calls).map Extension.name →
      (run {} [] calls).2.1.run (run {} [] calls).2.2 (.extend y :: later) =
        (.registered false :: ((run {} [] calls).2.1.run (run {} [] calls).2.2 later).1,
          ((run {} [] calls).2.1.run (run {} [] calls).2.2 later).2) := by
  constructor
  · intro x ctx word free meant maps
    exact evaluate_of_registered (extensions_of_new calls) (sound_of_new calls)
      (Expr.parse_word word free meant) maps
  · intro y later taken
    have known : y.name ∈ Entries.keys (run {} [] calls).2.1.extensions := by
      rw [extensions_of_new]
      simpa [Entries.keys, Function.comp_def] using taken
    rw [run, perform, register_of_taken known]

def firstSample : Extension where
  name := "first"
  globals := [("offset", .int 1), ("__rulebook", .int 0)]
  call := fun _ args => .ok (.list args)

def secondSample : Extension where
  name := "second"
  globals := [("offset", .int 2), ("limit", .int 3)]
  call := fun _ args => .ok (.list args)

/-- A name that is unknown at first, two extensions with a global in common, and a third one under the
name of the first. -/
def registrations : List Call := [
  .evaluate "offset" {},
  .extend firstSample,
  .parse "limit" ["offset"],
  .extend secondSample,
  .extend { secondSample with name := "first" },
  .evaluate "limit" {}]

def valueAfterwards (x : String) (entries : Entries Value) : Except ExprError Value :=
  ((run {} [] registrations).2.1.evaluate (run {} [] registrations).2.2 x ⟨entries⟩).1

theorem name_resolution_registrations :
    valueAfterwards "offset" [] = .ok (.int 1) ∧
    valueAfterwards "offset" [("offset", .int 5)] = .ok (.int 5) ∧
    valueAfterwards "limit" [("offset", .int 5)] = .ok (.int 3) ∧
    valueAfterwards "__rulebook" [] =
      .ok (.map [("extensions", .list [.string "first", .string "second"])]) ∧
    valueAfterwards "none" [] = .error (.unknownVariable "none") ∧
    (run {} [] registrations).2.1.run (run {} [] registrations).2.2 [.extend firstSample] =
      ([.registered false], (run {} [] registrations).2) := by
  have names := (name_resolution registrations).1
  have again := (name_resolution registrations).2
  refine ⟨(names "offset" ⟨[]⟩ (by decide) (by decide) rfl (by decide)).trans ?_,
    (names "offset" ⟨[("offset", .int 5)]⟩ (by decide) (by decide) rfl (by decide)).trans ?_,
    (names "limit" ⟨[("offset", .int 5)]⟩ (by decide) (by decide) rfl (by decide)).trans ?_,
    (names "__rulebook" ⟨[]⟩ (by decide) (by decide) rfl (by decide)).trans ?_,
    (names "none" ⟨[]⟩ (by decide) (by decide) rfl (by decide)).trans ?_,
    again firstSample [] (by decide)⟩ <;> rfl

end Evaluator

end RuleRegistry
