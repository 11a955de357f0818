import RuleRegistry.Extension
import RuleRegistry.Proofs.ReadableKeys
import RuleRegistry.Proofs.Scoping

namespace RuleRegistry

open Outcome

namespace Language

variable {l l' : Language} {store : ParseStore} {source : String} {names : List String} {e : Expr}

/-- Each entry stands under the key of its request and is what the language reads for it. -/
structure Sound (l : Language) (store : ParseStore) : Prop where
  keyed : ∀ entry ∈ store, entry.1 = requestKey entry.2.source entry.2.names
  reads : ∀ entry ∈ store, l.parseFresh entry.2.source entry.2.names = .ok entry.2

theorem Sound.empty (l : Language) : Sound l [] := ⟨nofun, nofun⟩

theorem Sound.extend (h : Sound l store) (more : l.Extends l') : Sound l' store where
  keyed := h.keyed
  reads := fun entry mem => parseFresh_of_extends more (h.reads entry mem) fun _ known => known

theorem Sound.parse (h : Sound l store) (source : String) (names : List String) :
    Sound l (l.parse store source names).2 := by
  unfold Language.parse
  dsimp only
  split
  · exact h
  · split
    · rename_i p read
      obtain ⟨e, _, _, rfl⟩ := parseFresh_ok_iff.mp read
      constructor
      · intro entry mem
        rcases Entries.mem_put mem with old | rfl
        · exact h.keyed entry old
        · rfl
      · intro entry mem
        rcases Entries.mem_put mem with old | rfl
        · exact h.reads entry old
        · exact read
    · exact h

theorem Sound.perform (h : Sound l store) (call : Call) :
    Sound (l.perform store call).2.1 (l.perform store call).2.2 := by
  cases call with
  | addFunction f => exact h.extend (l.extends_addFunction f)
  | register name compile call => exact h.extend (l.extends_addFunction ⟨name, compile, call⟩)
  | parse source names => exact h.parse source names
  | compile source names => exact h.parse source names
  | evaluate source ctx => exact h.parse source ctx.names

theorem extends_addFunctions (l : Language) (fs : List Function) :
    l.Extends (fs.foldl addFunction l) := by
  induction fs generalizing l with
  | nil => exact fun _ known => known
  | cons f rest ih => exact fun name known => ih _ name (l.extends_addFunction f name known)

/-- A text that can be read gives its own tree, also where it is taken from the store, or else one of
its references is refused. -/
theorem Sound.tree (h : Sound l store) (read : Expr.parse source = .ok e) (names : List String) :
    (∃ p, (l.parse store source names).1 = .ok p ∧ p.expr = e ∧
      ∀ f, .function f ∈ e.references → Entries.has l.functions f = true) ∨
        ∃ err, l.check names e = .error err ∧ (l.parse store source names).1 = .error err := by
  have registered {names : List String} (checked : l.check names e = .ok ()) (f : String)
      (mem : .function f ∈ e.references) : Entries.has l.functions f = true :=
    refusal?_none_iff.mp (check_ok_iff.mp checked _ mem)
  unfold Language.parse
  dsimp only
  split
  · rename_i p found
    have mem := Entries.mem_of_find? found
    obtain ⟨e', read', checked, whole⟩ := parseFresh_ok_iff.mp (h.reads _ mem)
    have source_eq := Expr.source_eq_of_requestKey read read' (h.keyed _ mem)
    rw [← source_eq, read] at read'
    cases read'
    exact .inl ⟨p, rfl, congrArg Parsed.expr whole, registered checked⟩
  · cases checked : l.check names e with
    | ok _ =>
      have fresh := parseFresh_ok_iff.mpr ⟨e, read, checked, rfl⟩
      rw [fresh]
      exact .inl ⟨_, rfl, rfl, registered checked⟩
    | error err =>
      have fresh : l.parseFresh source names = .error err := by
        rw [parseFresh, read, Except.bind, checked]
        rfl
      rw [fresh]
      exact .inr ⟨err, rfl, rfl⟩

end Language

namespace Evaluator

variable {ev : Evaluator} {store : ParseStore} {x : Extension}

/-- The calls of an evaluator; its language can also be called on its own. -/
inductive Call where
  | extend (x : Extension)
  | language (call : Language.Call)
  | parse (source : String) (names : List String)
  | compile (source : String) (names : List String)
  | evaluate (source : String) (ctx : Context)
  | extension (name : String)
  | extensions
  | globals

inductive Answer where
  | registered (added : Bool)
  | language (answer : Language.Answer)
  | tree (result : Except ExprError Expr)
  | text (result : Except ExprError String)
  | value (result : Except ExprError Value)
  | extension (x : Option Extension)
  | extensions (all : Entries Extension)
  | globals (all : Entries Value)

def perform (ev : Evaluator) (store : ParseStore) : Call → Answer × Evaluator × ParseStore
  | .extend x =>
    let (added, ev) := ev.register x
    (.registered added, ev, store)
  | .language call =>
    let (answer, l, store) := ev.language.perform store call
    (.language answer, ⟨l, ev.extensions⟩, store)
  | .parse source names =>
    let (result, store) := ev.parse store source names
    (.tree (result.map Parsed.expr), ev, store)
  | .compile source names =>
    let (result, store) := ev.compile store source names
    (.text result, ev, store)
  | .evaluate source ctx =>
    let (result, store) := ev.evaluate store source ctx
    (.value result, ev, store)
  | .extension name => (.extension (ev.extension? name), ev, store)
  | .extensions => (.extensions ev.extensions, ev, store)
  | .globals => (.globals ev.globals, ev, store)

/-- The answers to calls in turn, and the evaluator and the store after them. -/
def run (ev : Evaluator) (store : ParseStore) : List Call → List Answer × Evaluator × ParseStore
  | [] => ([], ev, store)
  | call :: rest =>
    let (answer, ev, store) := ev.perform store call
    let (answers, final) := run ev store rest
    (answer :: answers, final)

/-- The extensions whose names are new, in the order in which they came. -/
def firsts (taken : List String) : List Call → List Extension
  | [] => []
  | .extend x :: rest =>
    if x.name ∈ taken then firsts taken rest else x :: firsts (taken ++ [x.name]) rest
  | _ :: rest => firsts taken rest

theorem firsts_cons (taken : List String) (call : Call) (rest : List Call) :
    firsts taken (call :: rest) =
      firsts taken [call] ++ firsts (taken ++ (firsts taken [call]).map Extension.name) rest := by
  cases call with
  | extend x =>
    by_cases known : x.name ∈ taken
    · simp [firsts, known]
    · simp [firsts, known]
  | _ => simp [firsts]

/-- The names of such extensions differ from each other and from those that are taken. -/
theorem names_firsts (taken : List String) (calls : List Call) :
    ((firsts taken calls).map Extension.name).Nodup ∧ ∀ x ∈ firsts taken calls, x.name ∉ taken := by
  induction calls generalizing taken with
  | nil => exact ⟨.nil, nofun⟩
  | cons call rest ih =>
    cases call with
    | extend x =>
      by_cases known : x.name ∈ taken
      · simpa [firsts, known] using ih taken
      · obtain ⟨nodup, new⟩ := ih (taken ++ [x.name])
        simp only [List.mem_append, List.mem_singleton, not_or] at new
        simp only [firsts, if_neg known, List.map_cons, List.nodup_cons]
        refine ⟨⟨fun mem => ?_, nodup⟩, List.forall_mem_cons.mpr ⟨known, fun y mem => (new y mem).1⟩⟩
        obtain ⟨y, listed, same⟩ := List.mem_map.mp mem
        exact (new y listed).2 same
    | _ => exact ih taken

theorem register_of_taken (taken : x.name ∈ Entries.keys ev.extensions) :
    ev.register x = (false, ev) := by
  rw [register, if_pos (Entries.has_iff.mpr taken)]

theorem register_of_new (new : x.name ∉ Entries.keys ev.extensions) :
    ev.register x = (true, ⟨(x.functions.map x.function).foldl Language.addFunction ev.language,
      ev.extensions ++ [(x.name, x)]⟩) := by
  rw [register, if_neg (mt Entries.has_iff.mp new), Entries.put_of_not_mem new, List.foldl_map]

theorem extensions_perform (ev : Evaluator) (store : ParseStore) (call : Call) :
    (ev.perform store call).2.1.extensions =
      ev.extensions ++ (firsts (Entries.keys ev.extensions) [call]).map fun x => (x.name, x) := by
  cases call with
  | extend x =>
    by_cases known : x.name ∈ Entries.keys ev.extensions
    · simp [perform, register_of_taken known, firsts, known]
    · simp [perform, register_of_new known, firsts, known]
  | _ => exact (List.append_nil _).symm

theorem sound_perform (sound : ev.language.Sound store) (call : Call) :
    (ev.perform store call).2.1.language.Sound (ev.perform store call).2.2 := by
  cases call with
  | extend x =>
    by_cases known : x.name ∈ Entries.keys ev.extensions
    · simpa only [perform, register_of_taken known] using sound
    · simp only [perform, register_of_new known]
      exact sound.extend (ev.language.extends_addFunctions _)
  | language call => exact sound.perform call
  | parse source names => exact sound.parse source _
  | compile source names => exact sound.parse source _
  | evaluate source ctx => exact sound.parse source _
  | _ => exact sound

theorem extensions_run (ev : Evaluator) (store : ParseStore) (calls : List Call) :
    (ev.run store calls).2.1.extensions =
      ev.extensions ++ (firsts (Entries.keys ev.extensions) calls).map fun x => (x.name, x) := by
  induction calls generalizing ev store with
  | nil => exact (List.append_nil _).symm
  | cons call rest ih =>
    have step := ev.extensions_perform store call
    rw [run, ih, firsts_cons, step]
    simp [Entries.keys, Function.comp_def]

theorem sound_run (sound : ev.language.Sound store) (calls : List Call) :
    (ev.run store calls).2.1.language.Sound (ev.run store calls).2.2 := by
  induction calls generalizing ev store with
  | nil => exact sound
  | cons call rest ih => exact ih (sound_perform sound call)

/-- What a new evaluator has after a history of calls. -/
theorem extensions_of_new (calls : List Call) :
    (run {} [] calls).2.1.extensions = (firsts [] calls).map fun x => (x.name, x) :=
  extensions_run {} [] calls

theorem extension?_of_new {calls : List Call} (first : x ∈ firsts [] calls) :
    (run {} [] calls).2.1.extension? x.name = some x := by
  have nodup : (Entries.keys ((firsts [] calls).map fun x => (x.name, x))).Nodup := by
    simpa [Entries.keys, Function.comp_def] using (names_firsts [] calls).1
  rw [extension?, extensions_of_new, Entries.find?_eq_some_iff nodup]
  exact List.mem_map_of_mem first

theorem sound_of_new (calls : List Call) :
    (run {} [] calls).2.1.language.Sound (run {} [] calls).2.2 :=
  sound_run (Language.Sound.empty _) calls

end Evaluator

end RuleRegistry
