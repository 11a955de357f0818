import RuleRegistry.Proofs.Scoping

/-!
Two languages with one store. What one of them read the other takes from the store, without a look
at its own functions. So an answer differs from that of a language with a store of its own exactly
where a text calls a function that the language does not have and the other one had read it before.
-/

namespace RuleRegistry

open Outcome

namespace Language

open Expr

/-- The language with the functions of both. -/
def both (languages : Bool → Language) : Language :=
  ⟨(languages true).functions ++ (languages false).functions⟩

theorem has_both {languages : Bool → Language} {callee : String} :
    Entries.has (both languages).functions callee = true ↔
      ∃ who, Entries.has (languages who).functions callee = true := by
  rw [both, Entries.has, Entries.find?_append, Option.isSome_or, Bool.or_eq_true, Bool.exists_bool,
    or_comm]
  rfl

theorem extends_both (languages : Bool → Language) (who : Bool) :
    (languages who).Extends (both languages) :=
  fun _ known => has_both.mpr ⟨who, known⟩

theorem both_extends {languages languages' : Bool → Language}
    (more : ∀ who, (languages who).Extends (languages' who)) :
    (both languages).Extends (both languages') := by
  intro callee known
  obtain ⟨who, known⟩ := has_both.mp known
  exact has_both.mpr ⟨who, more who callee known⟩

/-- Two languages and the store in which both keep what they read. -/
structure Pair where
  languages : Bool → Language
  store : ParseStore := []

namespace Pair

def perform (pair : Pair) (who : Bool) (call : Call) : Answer × Pair :=
  let (answer, l, store) := (pair.languages who).perform pair.store call
  (answer, ⟨Function.update pair.languages who l, store⟩)

/-- The pair after calls of either language in turn. -/
def after (pair : Pair) (history : List (Bool × Call)) : Pair :=
  history.foldl (fun pair step => (pair.perform step.1 step.2).2) pair

end Pair

/-- The calls of one of the languages. -/
def callsOf (who : Bool) (history : List (Bool × Call)) : List Call :=
  (history.filter fun step => step.1 == who).map Prod.snd

/-- The answer to a call after a history over one store. -/
def sharedAnswer (start : Bool → Language) (history : List (Bool × Call)) (who : Bool) (call : Call) :
    Answer :=
  ((Pair.after ⟨start, []⟩ history).perform who call).1

/-- The answer of a language with a store of its own, after its own calls of the history. -/
def privateAnswer (start : Bool → Language) (history : List (Bool × Call)) (who : Bool) (call : Call) :
    Answer :=
  let (_, l, store) := (start who).run [] (callsOf who history)
  (l.perform store call).1

/-- The functions do not depend on the store. -/
def languageAfter (start : Bool → Language) (history : List (Bool × Call)) (who : Bool) : Language :=
  ((start who).runFresh (callsOf who history)).2

/-- The requests that either language read, each with the functions it had then. -/
def readByEither (start : Bool → Language) (history : List (Bool × Call)) : Finset Request :=
  (start true).readSoFar (callsOf true history) ∪ (start false).readSoFar (callsOf false history)

/-- A text is known from the store, but calls a function that the language does not have. -/
structure Borrows (l : Language) (known : Finset Request) (source : String) (names : List String)
    (e : Expr) (callee : String) : Prop where
  known : (source, names.toFinset) ∈ known
  parsed : Expr.parse source = .ok e
  missing : e.references.findSome? (absent? l.functions) = some (.unknownFunction callee)

/-- The answers to a call over the common store and over an own one. -/
inductive Answers (l : Language) (known : Finset Request) : Call → Answer → Answer → Prop where
  | same {call : Call} {answer : Answer} :
    (∀ r ∈ call.request?, ∀ e callee, ¬ Borrows l known r.1 r.2 e callee) →
      Answers l known call answer answer
  | parse {source : String} {names : List String} {e : Expr} {callee : String} :
    Borrows l known source names e callee →
      Answers l known (.parse source names) (.tree (.ok e)) (.tree (.error (.unknownFunction callee)))
  | compile {source : String} {names : List String} {e : Expr} {callee : String} :
    Borrows l known source names e callee →
      Answers l known (.compile source names) (.text (.error (.unknownFunction callee)))
        (.text (.error (.unknownFunction callee)))
  | evaluate {source : String} {ctx : Context} {e : Expr} {callee : String} :
    Borrows l known source ctx.names e callee →
      Answers l known (.evaluate source ctx) (.value (e.eval l.functions ctx))
        (.value (.error (.unknownFunction callee)))

variable {l L : Language} {store : ParseStore} {done : Finset Request} {source : String}
  {names : List String}

theorem refusals_eq {refs : List Reference} (allowed : ∀ r ∈ refs, L.refusal? names r = none) :
    refs.findSome? (l.refusal? names) = refs.findSome? (absent? l.functions) :=
  findSome?_congr fun r mem => by
    cases r with
    | «variable» root => exact if_pos (refusal?_none_iff.mp (allowed _ mem))
    | function callee => rfl

/-- A text that a larger language reads fails only for the first function that is missing. -/
theorem parseFresh_of_larger {p : Parsed} (read : L.parseFresh source names = .ok p) :
    l.parseFresh source names = match p.expr.references.findSome? (absent? l.functions) with
      | some err => .error err
      | none => .ok p := by
  obtain ⟨e, parsed, checked, rfl⟩ := parseFresh_ok_iff.mp read
  rw [parseFresh, parsed, Except.bind, check, refusals_eq (check_ok_iff.mp checked)]
  cases e.references.findSome? (absent? l.functions) <;> rfl

namespace Coherent

theorem known_iff (h : Coherent L store done) (words : ∀ n ∈ names, Expr.IsWord n.toList) :
    (source, names.toFinset) ∈ done ↔
      ∃ p, Entries.find? store (requestKey source names) = some p := by
  constructor
  · intro known
    rw [h.done, List.mem_toFinset] at known
    obtain ⟨e, mem, same⟩ := List.mem_map.mp known
    obtain ⟨source_eq, names_eq⟩ := Prod.mk.inj same
    have key : requestKey source names = e.1 := by
      rw [h.keyed e mem]
      exact (requestKey_eq_iff words (h.words e mem)).mpr ⟨source_eq.symm, names_eq.symm⟩
    rw [← Option.isSome_iff_exists, Option.isSome_iff_ne_none, key]
    intro absent
    exact (Entries.find?_eq_none_iff store _).mp absent (List.mem_map_of_mem mem)
  · rintro ⟨p, found⟩
    exact (h.hit words found).2

/-- An entry that answers a request was read for the same text and the same names. -/
theorem request_of_hit (h : Coherent L store done) (words : ∀ n ∈ names, Expr.IsWord n.toList)
    {p : Parsed} (found : Entries.find? store (requestKey source names) = some p) :
    p.source = source ∧ p.names.toFinset = names.toFinset := by
  have mem := Entries.mem_of_find? found
  obtain ⟨source_eq, same⟩ := (requestKey_eq_iff words (h.words _ mem)).mp (h.keyed _ mem)
  exact ⟨source_eq.symm, same.symm⟩

/-- A smaller language leaves the store coherent. -/
theorem parse (h : Coherent L store done) (more : l.Extends L)
    (words : ∀ n ∈ names, Expr.IsWord n.toList) :
    Coherent L (l.parse store source names).2
      (done ∪ if (l.parseFresh source names).isOk then {(source, names.toFinset)} else ∅) := by
  unfold Language.parse
  dsimp only
  split
  · rename_i p found
    have known := (h.known_iff words).mpr ⟨p, found⟩
    have same : (done ∪ if (l.parseFresh source names).isOk then {(source, names.toFinset)} else ∅) =
        done := by
      rw [Finset.union_eq_left]
      split
      · exact Finset.singleton_subset_iff.mpr known
      · exact Finset.empty_subset _
    rw [same]
    exact h
  · rename_i absent
    split
    · rename_i p read
      have larger := parseFresh_of_extends more read fun _ mem => mem
      obtain ⟨e, _, _, rfl⟩ := parseFresh_ok_iff.mp read
      simpa [read, Except.isOk, Except.toBool] using h.miss words absent larger
    · rename_i e failed
      simpa [failed, Except.isOk, Except.toBool] using h

end Coherent

theorem extends_performFresh (l : Language) (call : Call) : l.Extends (l.performFresh call).2 := by
  cases call with
  | addFunction f => exact l.extends_addFunction f
  | register name compile call => exact l.extends_addFunction ⟨name, compile, call⟩
  | parse | compile | evaluate => exact fun _ known => known

namespace Pair

variable {pair : Pair}

theorem languages_perform (pair : Pair) (who : Bool) (call : Call) :
    (pair.perform who call).2.languages =
      Function.update pair.languages who ((pair.languages who).performFresh call).2 :=
  congrArg (Function.update pair.languages who) (perform_language _ _ _)

/-- Every call leaves the store coherent with the functions of both. -/
theorem coherent_perform (h : Coherent (both pair.languages) pair.store done) (who : Bool) (call : Call)
    (words : ∀ r ∈ call.request?, ∀ n ∈ r.2, Expr.IsWord n.toList) :
    Coherent (both (pair.perform who call).2.languages) (pair.perform who call).2.store
      (done ∪ (pair.languages who).readBy call) := by
  have more : (both pair.languages).Extends (both (pair.perform who call).2.languages) := by
    refine both_extends fun other => ?_
    rw [languages_perform, Function.update_apply]
    split
    · rename_i same
      rw [same]
      exact extends_performFresh _ call
    · exact fun _ known => known
  refine Coherent.extend ?_ more
  cases call with
  | addFunction | register =>
    rw [readBy, Call.request?, Finset.union_empty]
    exact h
  | parse | compile | evaluate => exact h.parse (extends_both _ who) (words _ rfl)

theorem languages_after (pair : Pair) (history : List (Bool × Call)) (who : Bool) :
    (pair.after history).languages who = languageAfter pair.languages history who := by
  induction history generalizing pair with
  | nil => rfl
  | cons step rest ih =>
    obtain ⟨caller, call⟩ := step
    refine (ih (pair.perform caller call).2).trans ?_
    rw [languageAfter, languageAfter, languages_perform, Function.update_apply]
    by_cases same : who = caller
    · subst same
      simp [callsOf, runFresh]
    · simp [callsOf, same, Ne.symm same]

theorem readSoFar_cons (pair : Pair) (caller who : Bool) (call : Call) (rest : List (Bool × Call)) :
    (pair.languages who).readSoFar (callsOf who ((caller, call) :: rest)) =
      (if who = caller then (pair.languages caller).readBy call else ∅) ∪
        ((pair.perform caller call).2.languages who).readSoFar (callsOf who rest) := by
  rw [languages_perform, Function.update_apply]
  by_cases same : who = caller
  · subst same
    simp [callsOf, readSoFar]
  · simp [callsOf, same, Ne.symm same]

theorem readByEither_cons (pair : Pair) (caller : Bool) (call : Call) (rest : List (Bool × Call)) :
    readByEither pair.languages ((caller, call) :: rest) =
      (pair.languages caller).readBy call ∪ readByEither (pair.perform caller call).2.languages rest := by
  rw [readByEither, readByEither, readSoFar_cons, readSoFar_cons]
  cases caller
  · simp only [Bool.true_eq_false, if_false, if_true, Finset.empty_union]
    exact Finset.union_left_comm _ _ _
  · simp only [Bool.false_eq_true, if_false, if_true, Finset.empty_union]
    exact Finset.union_assoc _ _ _

theorem coherent_after (h : Coherent (both pair.languages) pair.store done)
    (history : List (Bool × Call))
    (words : ∀ step ∈ history, ∀ r ∈ step.2.request?, ∀ n ∈ r.2, Expr.IsWord n.toList) :
    Coherent (both (pair.after history).languages) (pair.after history).store
      (done ∪ readByEither pair.languages history) := by
  induction history generalizing pair done with
  | nil =>
    rw [readByEither, callsOf, callsOf, List.filter_nil, List.filter_nil, List.map_nil, readSoFar,
      readSoFar, Finset.union_empty, Finset.union_empty]
    exact h
  | cons step rest ih =>
    obtain ⟨first, others⟩ := List.forall_mem_cons.mp words
    rw [readByEither_cons, ← Finset.union_assoc]
    exact ih (coherent_perform h step.1 step.2 first) others

end Pair

theorem unknownFunction_of_absent? {functions : Entries Function} {refs : List Reference}
    {err : ExprError} (missing : refs.findSome? (absent? functions) = some err) :
    ∃ callee, err = .unknownFunction callee := by
  obtain ⟨r, _, absent⟩ := List.exists_of_findSome?_eq_some missing
  cases r with
  | «variable» root => cases absent
  | function callee =>
    simp only [absent?] at absent
    split at absent
    · cases absent
    · exact ⟨callee, (Option.some.inj absent).symm⟩

/-- Reading through a store that a larger language may have filled. -/
theorem parse_of_coherent (h : Coherent L store done)
    (words : ∀ n ∈ names, Expr.IsWord n.toList) :
    ((∀ e callee, ¬ Borrows l done source names e callee) ∧
      (l.parse store source names).1.map Parsed.expr =
        (l.parseFresh source names).map Parsed.expr) ∨
    ∃ e callee, Borrows l done source names e callee ∧
      (l.parse store source names).1.map Parsed.expr = .ok e ∧
        l.parseFresh source names = .error (.unknownFunction callee) := by
  cases found : Entries.find? store (requestKey source names) with
  | none =>
    refine .inl ⟨fun e callee borrows => ?_, ?_⟩
    · obtain ⟨p, hit⟩ := (h.known_iff words).mp borrows.known
      rw [found] at hit
      cases hit
    · rw [parse, found]
      dsimp only
      cases l.parseFresh source names <;> rfl
  | some p =>
    obtain ⟨read, known⟩ := h.hit words found
    have answer : (l.parse store source names).1 = .ok p := by rw [parse, found]
    have fresh := parseFresh_of_larger (l := l) read
    obtain ⟨e, parsed, _, same⟩ := parseFresh_ok_iff.mp read
    obtain rfl : p.expr = e := congrArg Parsed.expr same
    cases missing : p.expr.references.findSome? (absent? l.functions) with
    | none =>
      refine .inl ⟨fun e callee borrows => ?_, ?_⟩
      · obtain rfl := Except.ok.inj (parsed.symm.trans borrows.parsed)
        rw [borrows.missing] at missing
        cases missing
      · rw [missing] at fresh
        rw [answer, fresh]
        rfl
    | some err =>
      obtain ⟨callee, rfl⟩ := unknownFunction_of_absent? missing
      rw [missing] at fresh
      refine .inr ⟨p.expr, callee, ⟨known, parsed, missing⟩, ?_, fresh⟩
      rw [answer]
      rfl

theorem compile_of_missing {functions : Entries Function} {e : Expr} {callee : String}
    (missing : e.references.findSome? (absent? functions) = some (.unknownFunction callee)) :
    e.compile functions = .error (.unknownFunction callee) := by
  have failed := (error?_compile functions e).trans missing
  cases printed : e.compile functions with
  | ok text =>
    rw [printed] at failed
    cases failed
  | error err =>
    rw [printed] at failed
    exact congrArg Except.error (Option.some.inj failed)

/-- What a call answers, given the outcome of reading its request. -/
def answerTo (l : Language) (read : Except ExprError Expr) : Call → Answer
  | .addFunction _ | .register _ _ _ => .done
  | .parse _ _ => .tree read
  | .compile _ _ => .text (read.bind fun e => e.compile l.functions)
  | .evaluate _ ctx => .value (read.bind fun e => e.eval l.functions ctx)

theorem bind_map_expr {α : Type} (r : Except ExprError Parsed) (f : Expr → Except ExprError α) :
    (r.bind fun p => f p.expr) = (r.map Parsed.expr).bind f := by
  cases r <;> rfl

theorem perform_fst (l : Language) (store : ParseStore) {call : Call} {r : String × List String}
    (request : call.request? = some r) :
    (l.perform store call).1 = l.answerTo ((l.parse store r.1 r.2).1.map Parsed.expr) call := by
  cases call with
  | addFunction | register => rfl
  | parse source names =>
    cases request
    rfl
  | compile | evaluate =>
    cases request
    exact congrArg _ (bind_map_expr _ _)

theorem performFresh_fst (l : Language) {call : Call} {r : String × List String}
    (request : call.request? = some r) :
    (l.performFresh call).1 = l.answerTo ((l.parseFresh r.1 r.2).map Parsed.expr) call := by
  cases call with
  | addFunction | register => rfl
  | parse source names =>
    cases request
    rfl
  | compile | evaluate =>
    cases request
    exact congrArg _ (bind_map_expr _ _)

theorem answers_of_borrows {call : Call} {r : String × List String}
    (request : call.request? = some r) {e : Expr} {callee : String}
    (borrows : Borrows l done r.1 r.2 e callee) :
    Answers l done call (l.answerTo (.ok e) call)
      (l.answerTo (.error (.unknownFunction callee)) call) := by
  cases call with
  | addFunction | register => cases request
  | parse source names =>
    cases request
    exact .parse borrows
  | compile source names =>
    cases request
    have printed : l.answerTo (.ok e) (.compile source names) =
        .text (.error (.unknownFunction callee)) :=
      congrArg Answer.text (compile_of_missing borrows.missing)
    rw [printed]
    exact .compile borrows
  | evaluate source ctx =>
    cases request
    exact .evaluate borrows

theorem perform_answers (h : Coherent L store done) (call : Call)
    (words : ∀ r ∈ call.request?, ∀ n ∈ r.2, Expr.IsWord n.toList) :
    Answers l done call (l.perform store call).1 (l.performFresh call).1 := by
  cases request : call.request? with
  | none =>
    have same : (l.perform store call).1 = (l.performFresh call).1 := by
      cases call <;> first | rfl | cases request
    rw [same]
    exact .same (by rw [request]; exact nofun)
  | some r =>
    rw [perform_fst l store request, performFresh_fst l request]
    rcases parse_of_coherent (l := l) h (words r request) with
      ⟨none, same⟩ | ⟨e, callee, borrows, tree, fresh⟩
    · rw [same]
      exact .same (by rw [request]; rintro _ ⟨⟩; exact none)
    · rw [tree, fresh]
      exact answers_of_borrows request borrows

theorem coherent_start (start : Bool → Language) (history : List (Bool × Call))
    (words : ∀ step ∈ history, ∀ r ∈ step.2.request?, ∀ n ∈ r.2, Expr.IsWord n.toList) :
    Coherent (both (Pair.after ⟨start, []⟩ history).languages) (Pair.after ⟨start, []⟩ history).store
      (readByEither start history) := by
  have initial : Coherent (both (Pair.mk start []).languages) (Pair.mk start []).store ∅ :=
    Coherent.empty _
  have coherent := Pair.coherent_after initial history words
  rwa [Finset.empty_union] at coherent

/-- A language with a store of its own answers as without a store. -/
theorem privateAnswer_eq (start : Bool → Language) (history : List (Bool × Call)) (who : Bool)
    (call : Call)
    (words : ∀ step ∈ history, ∀ r ∈ step.2.request?, ∀ n ∈ r.2, Expr.IsWord n.toList)
    (last : ∀ r ∈ call.request?, ∀ n ∈ r.2, Expr.IsWord n.toList) :
    privateAnswer start history who call =
      ((languageAfter start history who).performFresh call).1 := by
  have own : ∀ c ∈ callsOf who history, ∀ r ∈ c.request?, ∀ n ∈ r.2, Expr.IsWord n.toList := by
    intro c mem
    obtain ⟨step, kept, rfl⟩ := List.mem_map.mp mem
    exact words step (List.mem_of_mem_filter kept)
  obtain ⟨_, language, coherent⟩ := run_coherent (Coherent.empty (start who)) (callsOf who history) own
  have answer := (perform_coherent coherent call last).1
  rw [languageAfter, ← answer, ← language]
  rfl

/-- Over a common store every call answers as over a store of its own, but for the texts that the
other language read and that call a function which is missing here. -/
theorem answers_of_shared_store (start : Bool → Language) (history : List (Bool × Call)) (who : Bool)
    (call : Call)
    (words : ∀ step ∈ history ++ [(who, call)], ∀ r ∈ step.2.request?, ∀ n ∈ r.2,
      Expr.IsWord n.toList) :
    Answers (languageAfter start history who) (readByEither start history) call
        (sharedAnswer start history who call) (privateAnswer start history who call) ∧
      ∀ r ∈ call.request?, ∀ p,
        (((Pair.after ⟨start, []⟩ history).languages who).parse
          (Pair.after ⟨start, []⟩ history).store r.1 r.2).1 = .ok p →
            p.source = r.1 ∧ p.names.toFinset = r.2.toFinset := by
  obtain ⟨before, last⟩ := List.forall_mem_append.mp words
  have last := List.forall_mem_singleton.mp last
  have coherent := coherent_start start history before
  constructor
  · rw [privateAnswer_eq start history who call before last,
      ← Pair.languages_after ⟨start, []⟩ history who]
    exact perform_answers coherent call last
  · intro r request p read
    unfold parse at read
    dsimp only at read
    split at read
    · rename_i hit found
      cases read
      exact coherent.request_of_hit (last r request) found
    · split at read
      · rename_i fresh
        cases read
        obtain ⟨e, _, _, rfl⟩ := parseFresh_ok_iff.mp fresh
        exact ⟨rfl, rfl⟩
      · cases read

/-- The first language registers a function and reads a text that never comes to call it. -/
def borrowedHistory : List (Bool × Call) := [
  (true, .addFunction (.simple "f" fun args => .ok (.list args))),
  (true, .parse "x and f(x)" ["x"])]

theorem answers_of_shared_store_borrowed :
    Answers (languageAfter (fun _ => {}) borrowedHistory false)
        (readByEither (fun _ => {}) borrowedHistory) (.evaluate "x and f(x)" ⟨[("x", .null)]⟩)
        (sharedAnswer (fun _ => {}) borrowedHistory false (.evaluate "x and f(x)" ⟨[("x", .null)]⟩))
        (privateAnswer (fun _ => {}) borrowedHistory false
          (.evaluate "x and f(x)" ⟨[("x", .null)]⟩)) :=
  (answers_of_shared_store (fun _ => {}) borrowedHistory false _ (by decide)).1

/-- What the store holds of the text. -/
def borrowedTree : Parsed :=
  ⟨"x and f(x)", ["x"], .binary .and (.name "x" []) (.call "f" [.name "x" []])⟩

theorem store_of_borrowedHistory :
    (Pair.after ⟨fun _ => {}, []⟩ borrowedHistory).store = [("x and f(x)//x", borrowedTree)] := by
  have read : (({} : Language).addFunction (.simple "f" fun args => .ok (.list args))).parse []
      "x and f(x)" ["x"] = (.ok borrowedTree, [("x and f(x)//x", borrowedTree)]) := by
    cbv
  rw [borrowedHistory, Pair.after, List.foldl_cons, List.foldl_cons, List.foldl_nil]
  simp only [Pair.perform, perform, Function.update_self, read]

/-- The second language does not have the function, but evaluates the text. -/
theorem sharedAnswer_ne_privateAnswer :
    sharedAnswer (fun _ => {}) borrowedHistory false (.evaluate "x and f(x)" ⟨[("x", .null)]⟩) =
        .value (.ok (.bool false)) ∧
      privateAnswer (fun _ => {}) borrowedHistory false (.evaluate "x and f(x)" ⟨[("x", .null)]⟩) =
        .value (.error (.unknownFunction "f")) := by
  constructor
  · have second : (Pair.after ⟨fun _ => {}, []⟩ borrowedHistory).languages false = {} :=
      Pair.languages_after _ _ _
    have value : ({} : Language).evaluate [("x and f(x)//x", borrowedTree)] "x and f(x)"
        ⟨[("x", .null)]⟩ = (.ok (.bool false), [("x and f(x)//x", borrowedTree)]) := by
      cbv
    rw [sharedAnswer, Pair.perform, second, store_of_borrowedHistory, perform, value]
  · have own : callsOf false borrowedHistory = [] := rfl
    rw [privateAnswer, own, run]
    cbv

end Language

end RuleRegistry
