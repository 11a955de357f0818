import Mathlib.Data.Finset.Card
import RuleRegistry.Proofs.Outcome
import RuleRegistry.Proofs.RequestKey

namespace RuleRegistry

open Outcome

namespace Language

def compileFresh (l : Language) (source : String) (names : List String) : Except ExprError String :=
  (l.parseFresh source names).bind fun p => p.expr.compile l.functions

def evaluateFresh (l : Language) (source : String) (ctx : Context) : Except ExprError Value :=
  (l.parseFresh source ctx.names).bind fun p => p.expr.eval l.functions ctx

inductive Call where
  | addFunction (f : Function)
  | register (name : String) (compile : List String → String)
      (call : Context → List Value → Except ExprError Value)
  | parse (source : String) (names : List String)
  | compile (source : String) (names : List String)
  | evaluate (source : String) (ctx : Context)

/-- What a call reads: a text, and the names that it may refer to. -/
def Call.request? : Call → Option (String × List String)
  | .addFunction _ | .register _ _ _ => none
  | .parse source names | .compile source names => some (source, names)
  | .evaluate source ctx => some (source, ctx.names)

inductive Answer where
  | done
  | tree (result : Except ExprError Expr)
  | text (result : Except ExprError String)
  | value (result : Except ExprError Value)

def perform (l : Language) (store : ParseStore) : Call → Answer × Language × ParseStore
  | .addFunction f => (.done, l.addFunction f, store)
  | .register name compile call => (.done, l.register name compile call, store)
  | .parse source names =>
    let (result, store) := l.parse store source names
    (.tree (result.map Parsed.expr), l, store)
  | .compile source names =>
    let (result, store) := l.compile store source names
    (.text result, l, store)
  | .evaluate source ctx =>
    let (result, store) := l.evaluate store source ctx
    (.value result, l, store)

def performFresh (l : Language) : Call → Answer × Language
  | .addFunction f => (.done, l.addFunction f)
  | .register name compile call => (.done, l.register name compile call)
  | .parse source names => (.tree ((l.parseFresh source names).map Parsed.expr), l)
  | .compile source names => (.text (l.compileFresh source names), l)
  | .evaluate source ctx => (.value (l.evaluateFresh source ctx), l)

/-- The answers to calls in turn, and the language and the store after them. -/
def run (l : Language) (store : ParseStore) : List Call → List Answer × Language × ParseStore
  | [] => ([], l, store)
  | call :: rest =>
    let (answer, l, store) := l.perform store call
    let (answers, final) := run l store rest
    (answer :: answers, final)

def runFresh (l : Language) : List Call → List Answer × Language
  | [] => ([], l)
  | call :: rest =>
    let (answer, l) := l.performFresh call
    let (answers, final) := runFresh l rest
    (answer :: answers, final)

theorem perform_language (l : Language) (store : ParseStore) (call : Call) :
    (l.perform store call).2.1 = (l.performFresh call).2 := by
  cases call <;> rfl

abbrev Request := String × Finset String

/-- The request that a call reads without an error, if it reads one. -/
def readBy (l : Language) (call : Call) : Finset Request :=
  match call.request? with
  | some (source, names) => if (l.parseFresh source names).isOk then {(source, names.toFinset)} else ∅
  | none => ∅

/-- The requests that were read without an error so far. -/
def readSoFar (l : Language) : List Call → Finset Request
  | [] => ∅
  | call :: rest => l.readBy call ∪ readSoFar (l.performFresh call).2 rest

def Extends (l l' : Language) : Prop :=
  ∀ name, Entries.has l.functions name = true → Entries.has l'.functions name = true

theorem extends_addFunction (l : Language) (f : Function) : l.Extends (l.addFunction f) := by
  intro name known
  rw [Entries.has, addFunction, Entries.find?_put]
  split
  · rfl
  · exact known

theorem refusal?_none_iff {l : Language} {names : List String} {r : Reference} :
    l.refusal? names r = none ↔ match r with
      | .variable root => root ∈ names
      | .function name => Entries.has l.functions name = true := by
  cases r <;> simp [refusal?]

theorem check_ok_iff {l : Language} {names : List String} {e : Expr} :
    l.check names e = .ok () ↔ ∀ r ∈ e.references, l.refusal? names r = none := by
  rw [← List.findSome?_eq_none_iff, check]
  split <;> simp [*]

theorem parseFresh_ok_iff {l : Language} {source : String} {names : List String} {p : Parsed} :
    l.parseFresh source names = .ok p ↔
      ∃ e, Expr.parse source = .ok e ∧ l.check names e = .ok () ∧ p = ⟨source, names, e⟩ := by
  rw [parseFresh, bind_ok_iff]
  refine exists_congr fun e => and_congr_right fun _ => ?_
  rw [map_ok_iff]
  constructor
  · rintro ⟨_, checked, rfl⟩
    exact ⟨checked, rfl⟩
  · rintro ⟨checked, rfl⟩
    exact ⟨(), checked, rfl⟩

/-- What was read once is read again by a language with more functions under the same names. -/
theorem parseFresh_of_extends {l l' : Language} (more : l.Extends l') {source : String}
    {names names' : List String} {p : Parsed} (read : l.parseFresh source names = .ok p)
    (same : ∀ n ∈ names, n ∈ names') : l'.parseFresh source names' = .ok ⟨source, names', p.expr⟩ := by
  obtain ⟨e, parsed, checked, rfl⟩ := parseFresh_ok_iff.mp read
  refine parseFresh_ok_iff.mpr ⟨e, parsed, check_ok_iff.mpr fun r hr => ?_, rfl⟩
  have allowed := refusal?_none_iff.mp (check_ok_iff.mp checked r hr)
  refine refusal?_none_iff.mpr ?_
  match r, allowed with
  | .variable root, allowed => exact same root allowed
  | .function name, allowed => exact more name allowed

/-- Each entry is a request of words that the language still reads as it did, and these requests are
the given ones. -/
structure Coherent (l : Language) (store : ParseStore) (done : Finset Request) : Prop where
  nodup : (Entries.keys store).Nodup
  keyed : ∀ e ∈ store, e.1 = requestKey e.2.source e.2.names
  words : ∀ e ∈ store, ∀ n ∈ e.2.names, Expr.IsWord n.toList
  reads : ∀ e ∈ store, l.parseFresh e.2.source e.2.names = .ok e.2
  done : done = (store.map fun e => (e.2.source, e.2.names.toFinset)).toFinset

namespace Coherent

variable {l l' : Language} {store : ParseStore} {done : Finset Request}

theorem empty (l : Language) : Coherent l [] ∅ :=
  ⟨.nil, by simp, by simp, by simp, rfl⟩

theorem extend (h : Coherent l store done) (more : l.Extends l') : Coherent l' store done :=
  { h with reads := fun e he => parseFresh_of_extends more (h.reads e he) fun _ hn => hn }

/-- There are as many entries as requests. -/
theorem length_eq (h : Coherent l store done) : store.length = done.card := by
  have nodup : (store.map fun e => (e.2.source, e.2.names.toFinset)).Nodup := by
    refine List.Nodup.map_on (fun e he f hf same => ?_) (List.Nodup.of_map _ h.nodup)
    obtain ⟨source, names⟩ := Prod.mk.inj same
    refine List.inj_on_of_nodup_map h.nodup he hf ?_
    rw [h.keyed e he, h.keyed f hf]
    exact (requestKey_eq_iff (h.words e he) (h.words f hf)).mpr ⟨source, names⟩
  rw [h.done, List.toFinset_card_of_nodup nodup, List.length_map]

/-- The entry under the key of a request is the request itself, but for the order of its names. -/
theorem hit (h : Coherent l store done) {source : String} {names : List String}
    (words : ∀ n ∈ names, Expr.IsWord n.toList) {p : Parsed}
    (found : Entries.find? store (requestKey source names) = some p) :
    l.parseFresh source names = .ok ⟨source, names, p.expr⟩ ∧ (source, names.toFinset) ∈ done := by
  have mem := Entries.mem_of_find? found
  obtain ⟨source_eq, same⟩ := (requestKey_eq_iff words (h.words _ mem)).mp (h.keyed _ mem)
  rw [source_eq]
  constructor
  · refine parseFresh_of_extends (fun _ known => known) (h.reads _ mem) fun n hn => ?_
    rwa [← List.mem_toFinset, same, List.mem_toFinset]
  · rw [h.done, same, List.mem_toFinset]
    exact List.mem_map_of_mem mem

theorem miss (h : Coherent l store done) {source : String} {names : List String}
    (words : ∀ n ∈ names, Expr.IsWord n.toList) {p : Parsed}
    (absent : Entries.find? store (requestKey source names) = none)
    (read : l.parseFresh source names = .ok p) :
    Coherent l (Entries.put store (requestKey source names) p)
      (done ∪ {(source, names.toFinset)}) := by
  obtain ⟨e, parsed, checked, rfl⟩ := parseFresh_ok_iff.mp read
  have fresh := (Entries.find?_eq_none_iff store _).mp absent
  have grown := Entries.put_of_not_mem fresh ⟨source, names, e⟩
  have each {P : String × Parsed → Prop} (old : ∀ f ∈ store, P f)
      (new : P (requestKey source names, ⟨source, names, e⟩)) :
      ∀ f ∈ Entries.put store (requestKey source names) ⟨source, names, e⟩, P f := by
    rw [grown]
    exact List.forall_mem_append.mpr ⟨old, by simpa using new⟩
  refine ⟨Entries.nodup_put h.nodup _ _, each h.keyed rfl, each h.words words, each h.reads read, ?_⟩
  rw [grown, List.map_append, List.toFinset_append, ← h.done]
  rfl

end Coherent

/-- Reading through a coherent store gives the tree or the error that reading without one gives, and
leaves the store coherent. -/
theorem parse_coherent {l : Language} {store : ParseStore} {done : Finset Request}
    (h : Coherent l store done) {source : String} {names : List String}
    (words : ∀ n ∈ names, Expr.IsWord n.toList) :
    (l.parse store source names).1.map Parsed.expr = (l.parseFresh source names).map Parsed.expr ∧
      Coherent l (l.parse store source names).2
        (done ∪ if (l.parseFresh source names).isOk then {(source, names.toFinset)} else ∅) := by
  unfold parse
  dsimp only
  split
  · rename_i p found
    obtain ⟨read, known⟩ := h.hit words found
    rw [read]
    refine ⟨rfl, ?_⟩
    have same : done ∪ {(source, names.toFinset)} = done :=
      Finset.union_eq_left.mpr (Finset.singleton_subset_iff.mpr known)
    simpa [Except.isOk, Except.toBool, same] using h
  · rename_i absent
    split
    · rename_i p read
      exact ⟨by rw [read], by simpa [read, Except.isOk, Except.toBool] using h.miss words absent read⟩
    · rename_i e failed
      exact ⟨by rw [failed], by simpa [failed, Except.isOk, Except.toBool] using h⟩

theorem bind_expr {α : Type} {r r' : Except ExprError Parsed} (f : Expr → Except ExprError α)
    (same : r.map Parsed.expr = r'.map Parsed.expr) :
    (r.bind fun p => f p.expr) = r'.bind fun p => f p.expr := by
  have through (r : Except ExprError Parsed) :
      (r.bind fun p => f p.expr) = (r.map Parsed.expr).bind f := by cases r <;> rfl
  rw [through, through, same]

/-- Every call on a coherent store answers as without one. -/
theorem perform_coherent {l : Language} {store : ParseStore} {done : Finset Request}
    (h : Coherent l store done) (call : Call)
    (words : ∀ r ∈ call.request?, ∀ n ∈ r.2, Expr.IsWord n.toList) :
    (l.perform store call).1 = (l.performFresh call).1 ∧
      (l.perform store call).2.1 = (l.performFresh call).2 ∧
        Coherent (l.performFresh call).2 (l.perform store call).2.2 (done ∪ l.readBy call) := by
  cases call with
  | addFunction f =>
    rw [readBy, Call.request?, Finset.union_empty]
    exact ⟨rfl, rfl, h.extend (l.extends_addFunction f)⟩
  | register name compile call =>
    rw [readBy, Call.request?, Finset.union_empty]
    exact ⟨rfl, rfl, h.extend (l.extends_addFunction ⟨name, compile, call⟩)⟩
  | parse source names =>
    obtain ⟨tree, coherent⟩ := parse_coherent h (words _ rfl)
    exact ⟨congrArg Answer.tree tree, rfl, coherent⟩
  | compile source names =>
    obtain ⟨tree, coherent⟩ := parse_coherent h (words _ rfl)
    exact ⟨congrArg Answer.text (bind_expr (fun e => e.compile l.functions) tree), rfl, coherent⟩
  | evaluate source ctx =>
    obtain ⟨tree, coherent⟩ := parse_coherent h (words _ rfl)
    exact ⟨congrArg Answer.value (bind_expr (fun e => e.eval l.functions ctx) tree), rfl, coherent⟩

theorem run_coherent {l : Language} {store : ParseStore} {done : Finset Request}
    (h : Coherent l store done) (calls : List Call)
    (words : ∀ call ∈ calls, ∀ r ∈ call.request?, ∀ n ∈ r.2, Expr.IsWord n.toList) :
    (l.run store calls).1 = (l.runFresh calls).1 ∧
      (l.run store calls).2.1 = (l.runFresh calls).2 ∧
        Coherent (l.runFresh calls).2 (l.run store calls).2.2 (done ∪ l.readSoFar calls) := by
  induction calls generalizing l store done with
  | nil =>
    rw [readSoFar, Finset.union_empty]
    exact ⟨rfl, rfl, h⟩
  | cons call rest ih =>
    obtain ⟨first, second⟩ := List.forall_mem_cons.mp words
    obtain ⟨answer, language, coherent⟩ := perform_coherent h call first
    obtain ⟨answers, final, last⟩ := ih coherent second
    rw [Finset.union_assoc] at last
    rw [← language] at answers final last
    simp only [run, runFresh, readSoFar]
    rw [answer, answers, final, language]
    exact ⟨rfl, rfl, by rw [← language]; exact last⟩

/-- From an empty store every call of a history answers as without a store, and the store has one
entry for each request that was read so far. -/
theorem run_eq_runFresh (l : Language) (calls : List Call)
    (words : ∀ call ∈ calls, ∀ r ∈ call.request?, ∀ n ∈ r.2, Expr.IsWord n.toList) :
    (l.run [] calls).1 = (l.runFresh calls).1 ∧
      (l.run [] calls).2.2.length = (l.readSoFar calls).card := by
  obtain ⟨answers, _, coherent⟩ := run_coherent (Coherent.empty l) calls words
  rw [Finset.empty_union] at coherent
  exact ⟨answers, coherent.length_eq⟩

/-- A call that fails at first, the same request in two spellings, and a function that is replaced
after a call of it was read. -/
def replacedHistory : List Call := [
  .parse "f(x)" ["x"],
  .addFunction (.simple "f" fun args => .ok (.list args)),
  .parse "f(x)" ["x", "y"],
  .compile "f(x)" ["y", "x", "y"],
  .register "f" (fun args => "g(" ++ ", ".intercalate args ++ ")") fun _ _ => .ok .null,
  .evaluate "'//x' ~ f(x)" ⟨[("x", .int 1), ("y", .null)]⟩,
  .compile "f(x)" ["x", "y"]]

theorem run_eq_runFresh_replaced :
    (run {} [] replacedHistory).1 = (runFresh {} replacedHistory).1 ∧
      (run {} [] replacedHistory).2.2.length = 2 := by
  obtain ⟨answers, length⟩ := run_eq_runFresh {} replacedHistory (by decide)
  have requests : (readSoFar {} replacedHistory).card = 2 := by decide +kernel
  exact ⟨answers, length.trans requests⟩

end Language

end RuleRegistry
