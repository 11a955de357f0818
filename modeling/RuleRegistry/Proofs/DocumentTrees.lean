import RuleRegistry.Yaml.Tree

namespace RuleRegistry.Yaml.Tree

mutual

def decEq : (t u : Tree) → Decidable (t = u)
  | atom a, atom b => decidable_of_iff (a = b) (by simp)
  | sequence ts, sequence us =>
    have := decEqItems ts us
    decidable_of_iff (ts = us) (by simp)
  | mapping ps, mapping qs =>
    have := decEqPairs ps qs
    decidable_of_iff (ps = qs) (by simp)
  | tagged m t, tagged n u =>
    have := decEq t u
    decidable_of_iff (m = n ∧ t = u) (by simp)
  | atom _, sequence _ | atom _, mapping _ | atom _, tagged .. => isFalse nofun
  | sequence _, atom _ | sequence _, mapping _ | sequence _, tagged .. => isFalse nofun
  | mapping _, atom _ | mapping _, sequence _ | mapping _, tagged .. => isFalse nofun
  | tagged .., atom _ | tagged .., sequence _ | tagged .., mapping _ => isFalse nofun

def decEqItems : (ts us : List Tree) → Decidable (ts = us)
  | [], [] => isTrue rfl
  | t :: ts, u :: us =>
    have := decEq t u
    have := decEqItems ts us
    decidable_of_iff (t = u ∧ ts = us) (by simp)
  | [], _ :: _ | _ :: _, [] => isFalse nofun

def decEqPairs : (ps qs : List (Tree × Tree)) → Decidable (ps = qs)
  | [], [] => isTrue rfl
  | (k, v) :: ps, (l, w) :: qs =>
    have := decEq k l
    have := decEq v w
    have := decEqPairs ps qs
    decidable_of_iff ((k = l ∧ v = w) ∧ ps = qs) (by simp)
  | [], _ :: _ | _ :: _, [] => isFalse nofun

end

instance : DecidableEq Tree := decEq

theorem nil_of_ofItems? {ws : List WholeNode} (read : ofItems? ws = some []) : ws = [] := by
  cases ws with
  | nil => rfl
  | cons w rest => simp [ofItems?, Option.bind_eq_some_iff] at read

theorem cons_of_ofItems? {ws : List WholeNode} {t : Tree} {ts : List Tree}
    (read : ofItems? ws = some (t :: ts)) :
    ∃ w rest, ws = w :: rest ∧ ofNode? w = some t ∧ ofItems? rest = some ts := by
  cases ws with
  | nil => cases read
  | cons w rest =>
    obtain ⟨_, head, read⟩ := Option.bind_eq_some_iff.mp read
    obtain ⟨_, tail, same⟩ := Option.map_eq_some_iff.mp read
    cases same
    exact ⟨w, rest, rfl, head, tail⟩

theorem nil_of_ofPairs? {ws : List (WholeNode × WholeNode)} (read : ofPairs? ws = some []) :
    ws = [] := by
  cases ws with
  | nil => rfl
  | cons w rest => simp [ofPairs?, Option.bind_eq_some_iff] at read

theorem cons_of_ofPairs? {ws : List (WholeNode × WholeNode)} {p : Tree × Tree}
    {ps : List (Tree × Tree)} (read : ofPairs? ws = some (p :: ps)) :
    ∃ w rest, ws = w :: rest ∧ ofNode? w.1 = some p.1 ∧ ofNode? w.2 = some p.2 ∧
      ofPairs? rest = some ps := by
  cases ws with
  | nil => cases read
  | cons w rest =>
    obtain ⟨_, key, read⟩ := Option.bind_eq_some_iff.mp read
    obtain ⟨_, value, read⟩ := Option.bind_eq_some_iff.mp read
    obtain ⟨_, tail, same⟩ := Option.map_eq_some_iff.mp read
    cases same
    exact ⟨w, rest, rfl, key, value, tail⟩

/-- How a node reads as a tree without a tag. -/
inductive Plainly : WholeNode → Tree → Prop
  | scalar {props : Properties} {style : Style} {text : String} {a : Atom}
      (bare : Reading.isNamed props = false) (read : Atom.ofScalar? props.tag style text = some a) :
      Plainly (.scalar props style text) (atom a)
  | sequence {props : Properties} {items : List WholeNode} {ts : List Tree}
      (bare : Reading.isNamed props = false) (read : ofItems? items = some ts) :
      Plainly (.sequence props items) (sequence ts)
  | mapping {props : Properties} {pairs : List (WholeNode × WholeNode)} {ts : List (Tree × Tree)}
      (bare : Reading.isNamed props = false) (read : ofPairs? pairs = some ts) :
      Plainly (.mapping props pairs) (mapping ts)

theorem bare_of_withTag {props : Properties} {t u : Tree} (plain : ∀ name s, u ≠ tagged name s)
    (h : withTag props.tag t = u) : Reading.isNamed props = false ∧ t = u := by
  unfold withTag at h
  unfold Reading.isNamed
  cases named : props.tag.bind Tag.localName? with
  | none =>
    rw [named] at h
    exact ⟨rfl, h⟩
  | some name =>
    rw [named] at h
    exact absurd h.symm (plain _ _)

theorem Plainly.of_ofNode? {w : WholeNode} {t : Tree} (plain : ∀ name s, t ≠ tagged name s)
    (read : ofNode? w = some t) : Plainly w t := by
  cases w with
  | «alias» target => exact nomatch target
  | scalar props style text =>
    rw [ofNode?, Option.map_eq_some_iff] at read
    obtain ⟨a, known, same⟩ := read
    obtain ⟨bare, rfl⟩ := bare_of_withTag plain same
    exact .scalar bare known
  | sequence props items =>
    rw [ofNode?, Option.map_eq_some_iff] at read
    obtain ⟨ts, inside, same⟩ := read
    obtain ⟨bare, rfl⟩ := bare_of_withTag plain same
    exact .sequence bare inside
  | mapping props pairs =>
    rw [ofNode?, Option.bind_eq_some_iff] at read
    obtain ⟨ts, inside, read⟩ := read
    obtain ⟨us, distinct, same⟩ := Option.map_eq_some_iff.mp read
    obtain ⟨bare, rfl⟩ := bare_of_withTag plain same
    unfold distinctKeys? at distinct
    obtain ⟨_, kept⟩ := Option.ite_none_left_eq_some.mp distinct
    exact .mapping bare (inside.trans kept)

theorem mem_ofItems? {nodes : List WholeNode} {items : List Tree} (read : ofItems? nodes = some items)
    {item : Tree} (mem : item ∈ items) : ∃ node, ofNode? node = some item := by
  induction nodes generalizing items with
  | nil =>
    cases read
    cases mem
  | cons node rest ih =>
    obtain ⟨first, found, read⟩ := Option.bind_eq_some_iff.mp read
    obtain ⟨others, more, rfl⟩ := Option.map_eq_some_iff.mp read
    rcases List.mem_cons.mp mem with rfl | mem
    · exact ⟨node, found⟩
    · exact ih more mem

theorem mem_ofPairs? {items : List (WholeNode × WholeNode)} {pairs : List (Tree × Tree)}
    (read : ofPairs? items = some pairs) {pair : Tree × Tree} (mem : pair ∈ pairs) :
    ∃ node, ofNode? node = some pair.2 := by
  induction items generalizing pairs with
  | nil =>
    cases read
    cases mem
  | cons item rest ih =>
    obtain ⟨k, v⟩ := item
    rw [ofPairs?, Option.bind_eq_some_iff] at read
    obtain ⟨key, _, read⟩ := read
    obtain ⟨value, found, read⟩ := Option.bind_eq_some_iff.mp read
    obtain ⟨others, more, rfl⟩ := Option.map_eq_some_iff.mp read
    rcases List.mem_cons.mp mem with rfl | mem
    · exact ⟨v, found⟩
    · exact ih more mem

def plainKey? (pair : Tree × Tree) : Option String :=
  match pair.1 with
  | atom (.string s) => some s
  | _ => none

theorem same_string (s : String) : same (atom (.string s)) (atom (.string s)) = true := by
  have equal : (Atom.string s).same (.string s) = true := beq_self_eq_true (Atom.string s)
  exact equal

theorem plainKey?_eq_some {pair : Tree × Tree} {key : String} :
    plainKey? pair = some key ↔ pair.1 = atom (.string key) := by
  unfold plainKey?
  split
  · rename_i s plain
    rw [plain]
    simp
  · rename_i other
    exact ⟨nofun, fun plain => absurd plain (other key)⟩

theorem nodup_of_repeats {seen : List Tree} {pairs : List (Tree × Tree)}
    (once : distinctKeys?.repeats seen pairs = false) :
    (pairs.filterMap plainKey?).Nodup ∧
      ∀ key ∈ pairs.filterMap plainKey?, atom (.string key) ∉ seen := by
  induction pairs generalizing seen with
  | nil => exact ⟨.nil, nofun⟩
  | cons pair rest ih =>
    obtain ⟨k, v⟩ := pair
    rw [distinctKeys?.repeats, Bool.or_eq_false_iff] at once
    obtain ⟨fresh, others⟩ := once
    obtain ⟨nodup, unseen⟩ := ih others
    have kept : ∀ key ∈ rest.filterMap plainKey?, atom (.string key) ∉ seen :=
      fun key mem there => unseen key mem (List.mem_cons_of_mem _ there)
    cases plain : plainKey? (k, v) with
    | none =>
      rw [List.filterMap_cons_none plain]
      exact ⟨nodup, kept⟩
    | some key =>
      rw [List.filterMap_cons_some plain]
      obtain rfl : k = atom (.string key) := plainKey?_eq_some.mp plain
      constructor
      · exact List.nodup_cons.mpr ⟨fun again => unseen key again List.mem_cons_self, nodup⟩
      · refine List.forall_mem_cons.mpr ⟨fun there => ?_, kept⟩
        have repeated := List.any_eq_false.mp fresh _ there
        exact repeated (same_string key)

theorem ofNode?_mapping {node : WholeNode} {pairs : List (Tree × Tree)}
    (read : ofNode? node = some (.mapping pairs)) :
    (∃ items, ofPairs? items = some pairs) ∧ distinctKeys?.repeats [] pairs = false := by
  cases Plainly.of_ofNode? (by nofun) read with
  | @mapping props items _ _ inside =>
    rw [ofNode?, inside] at read
    obtain ⟨_, distinct, _⟩ := Option.map_eq_some_iff.mp read
    unfold distinctKeys? at distinct
    obtain ⟨once, _⟩ := Option.ite_none_left_eq_some.mp distinct
    exact ⟨⟨items, inside⟩, Bool.eq_false_iff.mpr once⟩

theorem ofNode?_sequence {node : WholeNode} {items : List Tree}
    (read : ofNode? node = some (.sequence items)) : ∃ nodes, ofItems? nodes = some items := by
  cases Plainly.of_ofNode? (by nofun) read with
  | sequence _ inside => exact ⟨_, inside⟩

/-- No key that is plainly a text comes twice. -/
theorem nodup_of_ofNode? {node : WholeNode} {pairs : List (Tree × Tree)}
    (read : ofNode? node = some (.mapping pairs)) : (pairs.filterMap plainKey?).Nodup :=
  (nodup_of_repeats (ofNode?_mapping read).2).1

theorem lookup?_cons (pair : Tree × Tree) (rest : List (Tree × Tree)) (key : String) :
    lookup? (pair :: rest) key = if plainKey? pair = some key then some pair.2 else lookup? rest key := by
  obtain ⟨k, v⟩ := pair
  cases k with
  | atom a =>
    cases a with
    | string s => by_cases here : s = key <;> simp [lookup?, plainKey?, here]
    | _ => rfl
  | _ => rfl

theorem lookup?_eq_none {pairs : List (Tree × Tree)} {key : String}
    (absent : key ∉ pairs.filterMap plainKey?) : lookup? pairs key = none := by
  induction pairs with
  | nil => rfl
  | cons pair rest ih =>
    rw [lookup?_cons]
    split
    · rename_i here
      rw [List.filterMap_cons_some here] at absent
      exact absurd List.mem_cons_self absent
    · refine ih fun there => absent ?_
      obtain ⟨other, mem, plain⟩ := List.mem_filterMap.mp there
      exact List.mem_filterMap.mpr ⟨other, List.mem_cons_of_mem _ mem, plain⟩

theorem mem_of_lookup? {pairs : List (Tree × Tree)} {key : String} {v : Tree}
    (found : lookup? pairs key = some v) : ∃ k, (k, v) ∈ pairs := by
  obtain ⟨pair, there, rfl⟩ := Option.map_eq_some_iff.mp found
  exact ⟨pair.1, List.mem_of_find?_eq_some there⟩

end RuleRegistry.Yaml.Tree
