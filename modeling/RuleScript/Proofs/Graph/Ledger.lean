import RuleScript.Proofs.Graph.WellFormed

/-!
# Graphs kept in a ledger

`Graph` has a rule at the position that is its id and finds a name by looking through the rules.  A
program that changes its graph in place keeps more than that: with each rule the id it was given,
and a table of names beside the rules.  This has to be kept in step, and a change that fails half
way leaves behind what it did before.

A `Ledger` keeps all of it, and its operations change it the way such a program does.  They do to
the ledger of a well-formed graph just what the operations of `Graph` do to the graph, as long as there
are ids left (`Ledger.InStep`).
-/

namespace RuleScript

/-- A rule with the id it was given. -/
structure Entry (α : Type) where
  id : RuleId
  rule : Rule α

/-- Rules in the order of registration, with a table of their names. -/
structure Ledger (α : Type) where
  entries : List (Entry α) := []
  names : List (String × RuleId) := []
  root : Option RuleId := none

/-- A change of a ledger.  What was changed before an error stays. -/
abbrev Update (α β : Type) := ExceptT GraphError (StateM (Ledger α)) β

namespace Ledger

variable {α : Type}

def size (l : Ledger α) : Nat := l.entries.length

def contains (l : Ledger α) (id : RuleId) : Bool := id.index < l.size

/-- The id of the rule with a name, as the table has it. -/
def idOf? (l : Ledger α) (name : String) : Option RuleId := l.names.lookup name

/-- The graph without what is kept beside the rules. -/
def graph (l : Ledger α) : Graph α where
  rules := (l.entries.map (·.rule)).toArray
  root := l.root

/-- The id for a position; positions that are too large have none. -/
def idAt (position : Nat) : RuleId := ⟨Nat.min position RuleId.invalid.index⟩

/-- Put a name into the table, in the place of what it stood for before. -/
def bindName (names : List (String × RuleId)) (name : String) (id : RuleId) :
    List (String × RuleId) :=
  names.filter (·.1 ≠ name) ++ [(name, id)]

/-- Add an entry, and its name to the table. -/
def push (l : Ledger α) (entry : Entry α) : Ledger α where
  entries := l.entries ++ [entry]
  names := (entry.rule.name.map (bindName l.names · entry.id)).getD l.names
  root := l.root

/-! ## Operations -/

def register (rule : Rule α) : Update α RuleId := do
  let l ← get
  match rule.name.filter (l.idOf? · |>.isSome), rule.kind.subs.find? (!l.contains ·) with
  | some taken, _ => throw (.duplicateName taken)
  | none, some unknown => throw (.unknownRule unknown)
  | none, none => do
    set (l.push ⟨idAt l.size, rule⟩)
    return idAt l.size

def setRoot (id : RuleId) : Update α Unit := do
  let l ← get
  if l.contains id then set { l with root := some id } else throw (.unknownRule id)

/-- An entry after its reference, if it is a pending one, has been looked up in the table. -/
def linkEntry (l : Ledger α) (entry : Entry α) : Entry α :=
  match entry.rule.kind with
  | .reference target none =>
    { entry with rule := { entry.rule with kind := .reference target (l.idOf? target) } }
  | _ => entry

/-- Point every pending reference at the rule it names, where there is one. -/
def link : Update α Unit := modify fun l => { l with entries := l.entries.map l.linkEntry }

/-- Link and report what is missing in reach of the root. -/
def resolve : Update α Unit := do
  link
  match (← get).graph.missing with
  | [] => return
  | missing => throw (.missingReferences missing)

/-- Make the root and every rule but `target` refer to `target` where they refer to `source`. -/
def redirect (l : Ledger α) (source target : RuleId) : Ledger α :=
  let moved (id : RuleId) : RuleId := if id = source then target else id
  { l with
    entries := l.entries.map fun entry =>
      if entry.id = target then entry else { entry with rule := entry.rule.mapSubs moved }
    root := l.root.map moved }

def replace (source target : RuleId) : Update α Unit := do
  let l ← get
  match [source, target].find? (!l.contains ·) with
  | some unknown => throw (.unknownRule unknown)
  | none => set (l.redirect source target)

/-- Whether some rule refers to `id` or the root is `id`. -/
def isInUse (l : Ledger α) (id : RuleId) : Bool :=
  l.entries.any (·.rule.kind.subs.contains id) || l.root == some id

/-- The breakpoints on a rule that are in use, in the order of registration. -/
def breakpointsOn (l : Ledger α) (target : RuleId) : List RuleId :=
  (l.entries.filter fun entry =>
    match entry.rule.kind with
    | .breakpoint sub => sub = target && l.isInUse entry.id
    | _ => false).map (·.id)

def setBreakpoint (name : String) : Update α RuleId := do
  let l ← get
  match l.idOf? name with
  | none => throw (.unknownName name)
  | some target =>
    match l.breakpointsOn target with
    | id :: _ => return id
    | [] => do
      let id ← register (.ofKind (.breakpoint target))
      replace target id
      return id

def clearBreakpoint (name : String) : Update α Unit := do
  let l ← get
  match l.idOf? name with
  | none => throw (.unknownName name)
  | some target => (l.breakpointsOn target).forM (replace · target)

/-- How far the places for the rules of a merged ledger are given out. -/
structure Placing where
  remap : Array RuleId
  shadowed : List String
  next : Nat

/-- Give a rule of a merged ledger its place: where its name is, or after all rules so far. -/
def place (l : Ledger α) (p : Placing) (entry : Entry α) : Placing :=
  match entry.rule.name.bind l.idOf? with
  | some existing =>
    { p with
      remap := p.remap.setIfInBounds entry.id.index existing
      shadowed := p.shadowed ++ entry.rule.name.toList }
  | none =>
    { p with
      remap := p.remap.setIfInBounds entry.id.index (idAt p.next)
      next := p.next + 1 }

/-- Where a rule of a merged ledger goes. -/
def placeOf (remap : Array RuleId) (id : RuleId) : RuleId := remap[id.index]?.getD .invalid

/-- Add a copy of a rule whose place is none of the first `base`. -/
def copy (base : Nat) (remap : Array RuleId) (l : Ledger α) (entry : Entry α) : Ledger α :=
  if (placeOf remap entry.id).index < base then l
  else l.push ⟨placeOf remap entry.id, entry.rule.mapSubs (placeOf remap)⟩

/-- Copy the rules of `other`.  All places are given out before the first rule is copied. -/
def merge (other : Ledger α) : Update α MergeReport := do
  let l ← get
  let placing := other.entries.foldl l.place
    { remap := Array.replicate other.size .invalid, shadowed := [], next := l.size }
  let copied := other.entries.foldl (copy l.size placing.remap) l
  set { copied with root := l.root.or (other.root.bind fun id => placing.remap[id.index]?) }
  link
  return ⟨copied.size - l.size, placing.shadowed, placing.remap⟩

/-! ## The ledger of a graph -/

/-- Rules with the ids from a number on. -/
def numbered : (first : Nat) → List (Rule α) → List (Entry α)
  | _, [] => []
  | first, rule :: rest => ⟨⟨first⟩, rule⟩ :: numbered (first + 1) rest

/-- What an entry contributes to the table of names. -/
def binding? (entry : Entry α) : Option (String × RuleId) := entry.rule.name.map (·, entry.id)

/-- The ledger of some rules in which each has its position for its id. -/
def ofRules (rules : List (Rule α)) (root : Option RuleId) : Ledger α where
  entries := numbered 0 rules
  names := (numbered 0 rules).filterMap binding?
  root := root

/-- The ledger that is in step with a graph. -/
def ofGraph (g : Graph α) : Ledger α := ofRules g.rules.toList g.root

section Numbered

variable {rules : List (Rule α)} {first : Nat}

theorem numbered_append (first : Nat) (rules more : List (Rule α)) :
    numbered first (rules ++ more) = numbered first rules ++ numbered (first + rules.length) more := by
  induction rules generalizing first with
  | nil => rfl
  | cons rule rules ih =>
      rw [List.cons_append, numbered, ih, numbered, List.cons_append, List.length_cons,
        Nat.add_right_comm, Nat.add_assoc]

@[simp] theorem length_numbered : (numbered first rules).length = rules.length := by
  induction rules generalizing first with
  | nil => rfl
  | cons rule rules ih => rw [numbered, List.length_cons, ih, List.length_cons]

@[simp] theorem map_rule_numbered : (numbered first rules).map (·.rule) = rules := by
  induction rules generalizing first with
  | nil => rfl
  | cons rule rules ih => rw [numbered, List.map_cons, ih]

theorem getElem?_numbered (index : Nat) :
    (numbered first rules)[index]? = rules[index]?.map (⟨⟨first + index⟩, ·⟩) := by
  induction rules generalizing first index with
  | nil => rfl
  | cons rule rules ih =>
      cases index with
      | zero => rfl
      | succ index =>
          rw [numbered, List.getElem?_cons_succ, List.getElem?_cons_succ, ih, Nat.add_right_comm]
          rfl

theorem map_numbered (change : RuleId → Rule α → Rule α) :
    (numbered first rules).map (fun entry => ⟨entry.id, change entry.id entry.rule⟩) =
      numbered first (rules.mapIdx fun index => change ⟨first + index⟩) := by
  refine List.ext_getElem? fun index => ?_
  simp [getElem?_numbered, Function.comp_def]

/-- Only the names of rules matter to the table of names. -/
theorem filterMap_binding?_congr {rules' : List (Rule α)}
    (h : rules.map (·.name) = rules'.map (·.name)) :
    (numbered first rules).filterMap binding? = (numbered first rules').filterMap binding? := by
  induction rules generalizing first rules' with
  | nil =>
      obtain rfl := List.map_eq_nil_iff.mp h.symm
      rfl
  | cons rule rules ih =>
      obtain ⟨rule', rules', rfl, hname, hrules⟩ := List.map_eq_cons_iff.mp h.symm
      simp only [numbered, List.filterMap_cons, binding?, hname, ih hrules.symm]

theorem lookup_binding? (name : String) :
    ((numbered first rules).filterMap binding?).lookup name =
      (rules.findIdx? (·.name == some name)).map fun index => ⟨first + index⟩ := by
  induction rules generalizing first with
  | nil => rfl
  | cons rule rules ih =>
      rw [numbered, List.findIdx?_cons]
      -- The ids behind the first rule are shifted by one.
      have hshift (found : Option Nat) : (found.map (· + 1)).map (RuleId.mk <| first + ·) =
          found.map (RuleId.mk <| first + 1 + ·) := by
        rw [Option.map_map]
        refine congrFun (congrArg Option.map (funext fun index => ?_)) found
        exact congrArg RuleId.mk (show first + (index + 1) = first + 1 + index by omega)
      cases hname : rule.name with
      | none =>
          rw [List.filterMap_cons_none (by simp [binding?, hname]), ih, ← hshift]
          rfl
      | some other =>
          rw [List.filterMap_cons_some (by rw [binding?, hname]; rfl), List.lookup_cons]
          cases heq : name == other with
          | true =>
              obtain rfl := beq_iff_eq.mp heq
              simp only [beq_self_eq_true, if_true, Option.map_some, Nat.add_zero]
          | false =>
              have hne : (some other == some name) = false :=
                beq_eq_false_iff_ne.mpr fun h =>
                  beq_eq_false_iff_ne.mp heq (Option.some.inj h).symm
              rw [hne, ih, ← hshift]
              rfl

end Numbered

variable {g : Graph α}

@[simp] theorem size_ofGraph (g : Graph α) : (ofGraph g).size = g.size := by
  simp [ofGraph, ofRules, size, Graph.size]

@[simp] theorem contains_ofGraph (g : Graph α) (id : RuleId) :
    (ofGraph g).contains id = g.contains id := by
  rw [contains, size_ofGraph, Graph.contains]

@[simp] theorem graph_ofGraph (g : Graph α) : (ofGraph g).graph = g := by
  simp [graph, ofGraph, ofRules]

@[simp] theorem idOf?_ofGraph (g : Graph α) (name : String) :
    (ofGraph g).idOf? name = g.idOf? name := by
  rw [idOf?, ofGraph, ofRules, lookup_binding?, Graph.idOf?]
  simp only [Nat.zero_add]

theorem mem_entries_ofGraph {entry : Entry α} :
    entry ∈ (ofGraph g).entries ↔ g.rule? entry.id = some entry.rule := by
  rw [ofGraph, ofRules, List.mem_iff_getElem?]
  constructor
  · rintro ⟨index, hget⟩
    rw [getElem?_numbered, Nat.zero_add, Option.map_eq_some_iff] at hget
    obtain ⟨rule, hrule, rfl⟩ := hget
    simpa [Graph.rule?] using hrule
  · intro h
    refine ⟨entry.id.index, ?_⟩
    rw [getElem?_numbered, Nat.zero_add, Array.getElem?_toList]
    exact congrArg (Option.map _) h

theorem mem_names_ofGraph {name : String} {id : RuleId} :
    (name, id) ∈ (ofGraph g).names ↔ g.nameOf? id = some name := by
  have hnames : (ofGraph g).names = (ofGraph g).entries.filterMap binding? := rfl
  rw [hnames, List.mem_filterMap, Graph.nameOf?_eq_some_iff]
  constructor
  · rintro ⟨entry, hentry, hname⟩
    obtain ⟨_, hrule, heq⟩ := Option.map_eq_some_iff.mp hname
    cases heq
    exact ⟨entry.rule, mem_entries_ofGraph.mp hentry, hrule⟩
  · rintro ⟨rule, hrule, hname⟩
    exact ⟨⟨id, rule⟩, mem_entries_ofGraph.mpr hrule, by rw [binding?, hname]; rfl⟩

/-! ## Operations in step -/

theorem idAt_eq {position : Nat} (h : position ≤ RuleId.invalid.index) : idAt position = ⟨position⟩ :=
  congrArg RuleId.mk (Nat.min_eq_left h)

/-- A name that is new takes no place in the table from another one. -/
theorem bindName_eq {names : List (String × RuleId)} {name : String} {id : RuleId}
    (h : name ∉ names.map (·.1)) : bindName names name id = names ++ [(name, id)] := by
  rw [bindName, List.filter_eq_self.mpr]
  rintro ⟨other, id'⟩ hmem
  refine decide_eq_true fun heq => h ?_
  exact List.mem_map.mpr ⟨(other, id'), hmem, heq⟩

theorem map_fst_names_ofGraph (g : Graph α) : (ofGraph g).names.map (·.1) = g.names := by
  refine Eq.trans ?_ (Graph.names_eq g).symm
  have hnames (first : Nat) (rules : List (Rule α)) :
      ((numbered first rules).filterMap binding?).map (·.1) = rules.filterMap (·.name) := by
    induction rules generalizing first with
    | nil => rfl
    | cons rule rules ih =>
        rw [numbered]
        cases hname : rule.name with
        | none => simp [binding?, hname, ← ih (first + 1)]
        | some name => simp [binding?, hname, ← ih (first + 1)]
  exact hnames 0 g.rules.toList

/-- A rule with a new name goes to the end. -/
theorem push_ofGraph (rule : Rule α) (h : ∀ name ∈ rule.name, name ∉ g.names) :
    (ofGraph g).push ⟨⟨g.size⟩, rule⟩ = ofGraph { g with rules := g.rules.push rule } := by
  have hentries : numbered 0 (g.rules.push rule).toList =
      numbered 0 g.rules.toList ++ [⟨⟨g.size⟩, rule⟩] := by
    rw [Array.toList_push, numbered_append, Nat.zero_add]
    rfl
  rw [push, ofGraph, ofGraph, ofRules, ofRules, hentries, List.filterMap_append]
  congr 1
  cases hname : rule.name with
  | none => simp [binding?, hname]
  | some name =>
      have hnew : name ∉ (ofGraph g).names.map (·.1) := by
        rw [map_fst_names_ofGraph]
        exact h name hname
      simpa [binding?, hname, ofGraph, ofRules] using bindName_eq hnew

/-- An operation changes the ledger of a graph as its counterpart changes the graph. -/
def InStep {β : Type} (update : Update α β) (g : Graph α) (result : Except GraphError β × Graph α) :
    Prop :=
  update.run.run (ofGraph g) = (result.1, ofGraph result.2)

theorem InStep.bind {β γ : Type} {update : Update α β} {next : β → Update α γ} {value : β}
    {changed : Graph α} {result : Except GraphError γ × Graph α}
    (h : InStep update g (.ok value, changed)) (hnext : InStep (next value) changed result) :
    InStep (update >>= next) g result := by
  rw [InStep, ExceptT.run_bind, StateT.run_bind, h]
  exact hnext

/-- The result of an operation that comes to a graph or to an error, and the graph after it. -/
def settled {β : Type} (g : Graph α) (result : Except GraphError (β × Graph α)) :
    Except GraphError β × Graph α :=
  match result with
  | .ok (value, changed) => (.ok value, changed)
  | .error error => (.error error, g)

theorem register_inStep (hroom : g.size < RuleId.invalid.index) (rule : Rule α) :
    InStep (register rule) g (settled g (g.register rule)) := by
  have hnames : rule.name.filter ((ofGraph g).idOf? · |>.isSome) = rule.name.filter g.hasName := by
    simp only [idOf?_ofGraph]
    rfl
  have hget : (register rule).run.run (ofGraph g) =
      (match rule.name.filter ((ofGraph g).idOf? · |>.isSome),
          rule.kind.subs.find? (!(ofGraph g).contains ·) with
        | some taken, _ => throw (.duplicateName taken)
        | none, some unknown => throw (.unknownRule unknown)
        | none, none => do
          set ((ofGraph g).push ⟨idAt (ofGraph g).size, rule⟩)
          return idAt (ofGraph g).size : Update α RuleId).run.run (ofGraph g) := rfl
  rw [InStep, hget, hnames, Graph.register]
  simp only [contains_ofGraph]
  -- Both look at the name first, and at the references only if it is new.
  cases hname : rule.name.filter g.hasName with
  | some taken => rfl
  | none =>
      cases rule.kind.subs.find? (!g.contains ·) with
      | some unknown => rfl
      | none =>
          rw [Option.filter_eq_none_iff] at hname
          have hnew : ∀ name ∈ rule.name, name ∉ g.names := fun name hmem hnames =>
            hname name hmem (Graph.hasName_iff.mpr hnames)
          have hid : idAt (ofGraph g).size = ⟨g.size⟩ := by
            rw [size_ofGraph, idAt_eq (Nat.le_of_lt hroom)]
          rw [hid, push_ofGraph rule hnew]
          rfl

theorem setRoot_inStep (id : RuleId) :
    InStep (setRoot id) g (settled g ((g.setRoot id).map ((), ·))) := by
  have hget : (setRoot id).run.run (ofGraph g) =
      (if (ofGraph g).contains id then set { ofGraph g with root := some id }
        else throw (.unknownRule id) : Update α Unit).run.run (ofGraph g) := rfl
  rw [InStep, hget, contains_ofGraph, Graph.setRoot]
  split <;> rfl

/-- Entries that are changed without their names make the ledger of the changed rules. -/
theorem ofGraph_of_map (g changed : Graph α) (change : RuleId → Rule α → Rule α)
    (hname : ∀ id rule, (change id rule).name = rule.name)
    (hrules : changed.rules.toList = g.rules.toList.mapIdx fun index => change ⟨index⟩) :
    (⟨(ofGraph g).entries.map fun entry => ⟨entry.id, change entry.id entry.rule⟩,
      (ofGraph g).names, changed.root⟩ : Ledger α) = ofGraph changed := by
  have hentries : (ofGraph g).entries.map (fun entry => ⟨entry.id, change entry.id entry.rule⟩) =
      (ofGraph changed).entries := by
    refine (map_numbered change).trans ?_
    simp only [ofGraph, ofRules, hrules, Nat.zero_add]
  have hnames : (ofGraph g).names = (ofGraph changed).names := by
    refine filterMap_binding?_congr (List.ext_getElem? fun index => ?_)
    simp [hrules, Function.comp_def, hname]
  rw [hentries, hnames]
  rfl

theorem linkEntry_ofGraph (entry : Entry α) :
    (ofGraph g).linkEntry entry = ⟨entry.id, g.linkRule entry.rule⟩ := by
  rw [linkEntry, Graph.linkRule]
  cases entry.rule.kind with
  | reference target subject =>
      cases subject with
      | none => simp only [idOf?_ofGraph]
      | some subject => rfl
  | _ => rfl

theorem link_inStep : InStep link g (.ok (), g.link) := by
  have hlinked := ofGraph_of_map g g.link (fun _ => g.linkRule) (fun _ => Graph.name_linkRule g)
    (List.ext_getElem? fun index => by simp [Graph.link])
  rw [InStep, ← hlinked, ← funext (linkEntry_ofGraph (g := g))]
  rfl

theorem resolve_inStep : InStep resolve g g.resolve := by
  refine link_inStep.bind ?_
  have hget : ((do
      match (← get).graph.missing with
      | [] => return
      | missing => throw (.missingReferences missing) : Update α Unit).run.run (ofGraph g.link)) =
      (match (ofGraph g.link).graph.missing with
        | [] => pure ()
        | missing => throw (.missingReferences missing) : Update α Unit).run.run
          (ofGraph g.link) := rfl
  refine hget.trans ?_
  rw [graph_ofGraph, Graph.resolve]
  cases g.link.missing <;> rfl

theorem mk_eq_iff {index : Nat} {id : RuleId} : RuleId.mk index = id ↔ index = id.index := by
  cases id
  simp

theorem redirect_ofGraph (g : Graph α) (source target : RuleId) :
    (ofGraph g).redirect source target = ofGraph (g.redirect source target) := by
  have hredirected := ofGraph_of_map g (g.redirect source target)
    (fun id rule => if id = target then rule
      else rule.mapSubs fun sub => if sub = source then target else sub)
    (fun id rule => by split <;> rfl)
    (List.ext_getElem? fun index => by simp [Graph.redirect, mk_eq_iff])
  rw [← hredirected, redirect]
  congr 1
  refine List.map_congr_left fun entry _ => ?_
  split <;> rfl

theorem replace_inStep (source target : RuleId) :
    InStep (replace source target) g (settled g ((g.replace source target).map ((), ·))) := by
  have hget : (replace source target).run.run (ofGraph g) =
      (match [source, target].find? (!(ofGraph g).contains ·) with
        | some unknown => throw (.unknownRule unknown)
        | none => set ((ofGraph g).redirect source target) : Update α Unit).run.run
          (ofGraph g) := rfl
  rw [InStep, hget, redirect_ofGraph, Graph.replace]
  simp only [contains_ofGraph]
  cases [source, target].find? (!g.contains ·) <;> rfl

theorem map_id_entries_ofGraph (g : Graph α) : (ofGraph g).entries.map (·.id) = g.ids := by
  refine List.ext_getElem? fun index => ?_
  simp only [ofGraph, ofRules, List.getElem?_map, getElem?_numbered, Graph.ids, Option.map_map,
    Array.getElem?_toList, Nat.zero_add]
  by_cases hlt : index < g.size
  · rw [List.getElem?_eq_getElem (by simpa using hlt), Array.getElem?_eq_getElem hlt]
    simp
  · rw [List.getElem?_eq_none (by simpa using hlt), Array.getElem?_eq_none (Nat.not_lt.mp hlt)]
    rfl

@[simp] theorem isInUse_ofGraph (g : Graph α) (id : RuleId) :
    (ofGraph g).isInUse id = g.isInUse id := by
  have hrules : g.rules.toList = (ofGraph g).entries.map (·.rule) := map_rule_numbered.symm
  rw [isInUse, Graph.isInUse, ← Array.any_toList, hrules, List.any_map]
  rfl

theorem breakpointsOn_ofGraph (g : Graph α) (target : RuleId) :
    (ofGraph g).breakpointsOn target = g.breakpointsOn target := by
  rw [breakpointsOn, Graph.breakpointsOn, ← map_id_entries_ofGraph, List.filter_map]
  refine congrArg (List.map _) (List.filter_congr fun entry hentry => ?_)
  rw [Function.comp_apply, Graph.kind?_eq_some (mem_entries_ofGraph.mp hentry)]
  simp only [isInUse_ofGraph]
  split
  · rename_i sub hkind
    simp only [hkind]
  · rename_i hother
    split
    · rename_i sub hkind
      exact absurd (Option.some.inj hkind) (hother sub)
    · rfl

theorem redirect_inStep {source target : RuleId} (hsource : g.contains source)
    (htarget : g.contains target) :
    InStep (replace source target) g (.ok (), g.redirect source target) := by
  have hreplace : g.replace source target = .ok (g.redirect source target) := by
    rw [Graph.replace, List.find?_eq_none.mpr]
    simp [hsource, htarget]
  have hstep := replace_inStep (g := g) source target
  rwa [hreplace] at hstep

theorem clear_inStep (ids : List RuleId) {target : RuleId} (htarget : g.contains target)
    (hids : ∀ id ∈ ids, g.contains id) :
    InStep (ids.forM (replace · target)) g
      (.ok (), ids.foldl (fun g id => g.redirect id target) g) := by
  induction ids generalizing g with
  | nil => rfl
  | cons id ids ih =>
      obtain ⟨hid, hids⟩ := List.forall_mem_cons.mp hids
      have hcontains (id' : RuleId) : (g.redirect id target).contains id' = g.contains id' := by
        rw [Graph.contains, Graph.size_redirect, Graph.contains]
      refine (redirect_inStep hid htarget).bind (ih ?_ fun other hother => ?_)
      · rwa [hcontains]
      · rw [hcontains]
        exact hids other hother

theorem contains_of_mem_breakpointsOn {id target : RuleId} (h : id ∈ g.breakpointsOn target) :
    g.contains id :=
  Graph.contains_iff.mpr (Graph.mem_ids.mp (List.mem_filter.mp h).1)

theorem clearBreakpoint_inStep (name : String) :
    InStep (clearBreakpoint name) g (settled g ((g.clearBreakpoint name).map ((), ·))) := by
  have hget : (clearBreakpoint name).run.run (ofGraph g) =
      (match (ofGraph g).idOf? name with
        | none => throw (.unknownName name)
        | some target => ((ofGraph g).breakpointsOn target).forM (replace · target) :
          Update α Unit).run.run (ofGraph g) := rfl
  rw [InStep, hget, idOf?_ofGraph, Graph.clearBreakpoint]
  cases hname : g.idOf? name with
  | none => rfl
  | some target =>
      simp only [breakpointsOn_ofGraph]
      exact clear_inStep _ (Graph.contains_of_idOf? hname) fun id => contains_of_mem_breakpointsOn

/-- A breakpoint that is set anew can replace its target, so nothing fails half way. -/
theorem setBreakpoint_inStep (hroom : g.size < RuleId.invalid.index) (name : String) :
    InStep (setBreakpoint name) g
      (settled g ((g.setBreakpoint name).map fun set => (set.id, set.graph))) := by
  have hget : (setBreakpoint name).run.run (ofGraph g) =
      (match (ofGraph g).idOf? name with
        | none => throw (.unknownName name)
        | some target =>
          match (ofGraph g).breakpointsOn target with
          | id :: _ => return id
          | [] => do
            let id ← register (.ofKind (.breakpoint target))
            replace target id
            return id : Update α RuleId).run.run (ofGraph g) := rfl
  rw [InStep, hget, idOf?_ofGraph, Graph.setBreakpoint]
  cases hname : g.idOf? name with
  | none => rfl
  | some target =>
      simp only [breakpointsOn_ofGraph]
      cases hset : g.breakpointsOn target with
      | cons id ids => rfl
      | nil =>
          -- Registering cannot fail: the breakpoint has no name, and its target is a rule.
          have htarget := Graph.contains_of_idOf? hname
          have hregister : g.register (.ofKind (.breakpoint target)) = .ok
              (⟨g.size⟩, { g with rules := g.rules.push (.ofKind (.breakpoint target)) }) := by
            simp [Graph.register, Rule.ofKind, Kind.subs, htarget]
          have hstep := register_inStep hroom (.ofKind (.breakpoint target))
          rw [hregister] at hstep
          simp only [hregister]
          have hlt := Graph.contains_iff.mp htarget
          refine hstep.bind ((redirect_inStep ?_ ?_).bind rfl)
          · simpa [Graph.contains, Graph.size] using Nat.lt_succ_of_lt hlt
          · simp [Graph.contains, Graph.size]

section Merging

variable {other : Graph α}

/-- The id that there is for a position. -/
def clamp (id : RuleId) : RuleId := idAt id.index

theorem clamp_eq {id : RuleId} (h : id.index ≤ RuleId.invalid.index) : clamp id = id := idAt_eq h

/-- The places of rules are given out as `Graph.mergedIds` has them, as far as there are ids. -/
theorem foldl_place (hids : g.size ≤ RuleId.invalid.index) (rules : List (Rule α))
    (done rest : List RuleId) (shadowed : List String) (next : Nat)
    (hrest : rest.length = rules.length) :
    (numbered done.length rules).foldl (ofGraph g).place ⟨(done ++ rest).toArray, shadowed, next⟩ =
      ⟨(done ++ (g.mergedIds next rules).map clamp).toArray,
        shadowed ++ rules.filterMap fun rule => rule.name.filter g.hasName,
        next + rules.countP fun rule => (g.shadow? rule).isNone⟩ := by
  induction rules generalizing done rest shadowed next with
  | nil =>
      obtain rfl := List.length_eq_zero_iff.mp hrest
      simp [numbered, Graph.mergedIds]
  | cons rule rules ih =>
      obtain ⟨old, rest, rfl⟩ := List.exists_cons_of_length_eq_add_one hrest
      have hset (id : RuleId) : (done ++ old :: rest).toArray.setIfInBounds done.length id =
          ((done ++ [id]) ++ rest).toArray := by
        simp
      have hnext (id : RuleId) : done.length + 1 = (done ++ [id]).length := by simp
      have hshadow : rule.name.bind (ofGraph g).idOf? = g.shadow? rule := by
        rw [Graph.shadow?]
        exact congrArg _ (funext (idOf?_ofGraph g))
      replace hrest : rest.length = rules.length := Nat.succ.inj hrest
      rw [List.countP_cons, numbered, List.foldl_cons, place, hshadow, Graph.mergedIds]
      -- A rule that is shadowed takes the id its name has already, any other takes the next one.
      cases hfound : g.shadow? rule with
      | some id =>
          obtain ⟨name, hname, hid⟩ := Option.bind_eq_some_iff.mp hfound
          have hfilter : Option.filter g.hasName (some name) = some name := by
            rw [Option.filter_some, if_pos (by rw [Graph.hasName, hid]; rfl)]
          have hlt := Graph.contains_iff.mp (Graph.contains_of_shadow? hfound)
          have hclamp : clamp id = id := clamp_eq (by omega)
          simp only [hset]
          rw [hnext id, ih _ rest _ next hrest]
          simp [hname, hfilter, hclamp]
      | none =>
          have hfilter : rule.name.filter g.hasName = none :=
            Option.filter_eq_none_iff.mpr fun name hname hnames =>
              Graph.shadow?_eq_none_iff.mp hfound name hname (Graph.hasName_iff.mp hnames)
          simp only [hset]
          rw [hnext (idAt next), ih _ rest _ (next + 1) hrest]
          simp [hfilter, clamp, Nat.add_comm 1, Nat.add_assoc]

theorem map_clamp_mergedIds (rules : List (Rule α)) {next : Nat}
    (hids : g.size ≤ RuleId.invalid.index)
    (hroom : next + rules.countP (fun rule => (g.shadow? rule).isNone) ≤ RuleId.invalid.index) :
    (g.mergedIds next rules).map clamp = g.mergedIds next rules := by
  refine (List.map_congr_left fun id hid => ?_).trans (List.map_id _)
  refine clamp_eq ?_
  rcases Graph.index_lt_of_mem_mergedIds hid with hold | hnew
  · have hlt := Graph.contains_iff.mp hold
    omega
  · omega

/-- Just the rules that have no place among the first ones are copied. -/
theorem size_foldl_copy (hids : g.size ≤ RuleId.invalid.index) (remap : Array RuleId)
    (rules : List (Rule α)) (first next : Nat) (hnext : g.size ≤ next)
    (hremap : ∀ index < rules.length,
      remap[first + index]? = ((g.mergedIds next rules).map clamp)[index]?) (l : Ledger α) :
    ((numbered first rules).foldl (copy g.size remap) l).size =
      l.size + rules.countP fun rule => (g.shadow? rule).isNone := by
  induction rules generalizing first next l with
  | nil => rfl
  | cons rule rules ih =>
      have hfirst := hremap 0 (Nat.succ_pos _)
      have hmore (index : Nat) (hindex : index < rules.length) : remap[first + 1 + index]? =
          ((g.mergedIds next (rule :: rules)).map clamp)[index + 1]? := by
        rw [Nat.add_assoc, Nat.add_comm 1]
        exact hremap (index + 1) (Nat.succ_lt_succ hindex)
      rw [Nat.add_zero] at hfirst
      rw [Graph.mergedIds] at hfirst hmore
      rw [numbered, List.foldl_cons, copy, List.countP_cons]
      -- Whether a rule is copied is read off the place it has: below the old size it is shadowed.
      cases hfound : g.shadow? rule with
      | some id =>
          have hlt := Graph.contains_iff.mp (Graph.contains_of_shadow? hfound)
          simp only [hfound, List.map_cons, List.getElem?_cons_zero, List.getElem?_cons_succ]
            at hfirst hmore
          have hplace : placeOf remap ⟨first⟩ = id := by
            rw [placeOf, hfirst, Option.getD_some, clamp_eq (by omega)]
          rw [hplace, if_pos hlt, ih (first + 1) next hnext hmore]
          simp
      | none =>
          simp only [hfound, List.map_cons, List.getElem?_cons_zero, List.getElem?_cons_succ]
            at hfirst hmore
          have hplace : g.size ≤ (placeOf remap ⟨first⟩).index := by
            rw [placeOf, hfirst, Option.getD_some]
            exact Nat.le_min.mpr ⟨hnext, hids⟩
          rw [if_neg (Nat.not_lt.mpr hplace), ih (first + 1) (next + 1) (Nat.le_succ_of_le hnext) hmore]
          simp [push, size, Nat.add_comm 1, Nat.add_assoc]

/-- The rules that are copied come after those before them, at the places they were given. -/
theorem foldl_copy (remap : Array RuleId) (rules : List (Rule α)) (first : Nat) (g' : Graph α)
    (hsize : g.size ≤ g'.size)
    (hremap : ∀ index < rules.length, remap[first + index]? = (g.mergedIds g'.size rules)[index]?)
    (hnames : (g'.names ++
      (rules.filter fun rule => (g.shadow? rule).isNone).filterMap (·.name)).Nodup) :
    (numbered first rules).foldl (copy g.size remap) (ofGraph g') =
      ofGraph { g' with
        rules := g'.rules ++ ((rules.filter fun rule => (g.shadow? rule).isNone).map
          (·.mapSubs (placeOf remap))).toArray } := by
  induction rules generalizing first g' with
  | nil => simp [numbered]
  | cons rule rules ih =>
      have hfirst := hremap 0 (Nat.succ_pos _)
      have hmore (index : Nat) (hindex : index < rules.length) :
          remap[first + 1 + index]? = (g.mergedIds g'.size (rule :: rules))[index + 1]? := by
        rw [Nat.add_assoc, Nat.add_comm 1]
        exact hremap (index + 1) (Nat.succ_lt_succ hindex)
      rw [Nat.add_zero] at hfirst
      rw [Graph.mergedIds] at hfirst hmore
      rw [numbered, List.foldl_cons, copy]
      cases hfound : g.shadow? rule with
      | some id =>
          simp only [hfound, List.getElem?_cons_zero, List.getElem?_cons_succ] at hfirst hmore
          have hplace : placeOf remap ⟨first⟩ = id := by rw [placeOf, hfirst, Option.getD_some]
          rw [List.filter_cons_of_neg (by simp [hfound])] at hnames ⊢
          rw [hplace, if_pos (Graph.contains_iff.mp (Graph.contains_of_shadow? hfound))]
          exact ih (first + 1) g' hsize hmore hnames
      | none =>
          simp only [hfound, List.getElem?_cons_zero, List.getElem?_cons_succ] at hfirst hmore
          have hplace : placeOf remap ⟨first⟩ = ⟨g'.size⟩ := by
            rw [placeOf, hfirst, Option.getD_some]
          rw [List.filter_cons_of_pos (by simp [hfound])] at hnames ⊢
          -- The names that are new to the graph are new to each other as well.
          have hnew : ∀ name ∈ rule.name, name ∉ g'.names := by
            intro name hname hold
            refine (List.nodup_append.mp hnames).2.2 name hold name ?_ rfl
            exact List.mem_filterMap.mpr ⟨rule, List.mem_cons_self, hname⟩
          have hnames' : (Graph.names
              { g' with rules := g'.rules.push (rule.mapSubs (placeOf remap)) } ++
              (rules.filter fun rule => (g.shadow? rule).isNone).filterMap (·.name)).Nodup := by
            rw [Graph.names_push, List.append_assoc]
            cases hname : rule.name <;> simpa [hname, Rule.mapSubs] using hnames
          rw [hplace, if_neg (Nat.not_lt.mpr hsize),
            push_ofGraph (rule.mapSubs (placeOf remap)) hnew,
            ih (first + 1) _ _ _ hnames']
          · simp
          · simpa [Graph.size] using Nat.le_succ_of_le hsize
          · simpa [Graph.size] using hmore

theorem run_merge {l other copied : Ledger α} {placing : Placing}
    (hplaced : other.entries.foldl l.place ⟨Array.replicate other.size .invalid, [], l.size⟩ =
      placing)
    (hcopied : other.entries.foldl (copy l.size placing.remap) l = copied) :
    (merge other).run.run l =
      (do
        link
        return ⟨copied.size - l.size, placing.shadowed, placing.remap⟩ :
          Update α MergeReport).run.run
        { copied with root := l.root.or (other.root.bind fun id => placing.remap[id.index]?) } := by
  subst hplaced hcopied
  rfl

theorem foldl_place_ofGraph (hids : g.size ≤ RuleId.invalid.index) (other : Graph α) :
    (ofGraph other).entries.foldl (ofGraph g).place
      ⟨Array.replicate (ofGraph other).size .invalid, [], (ofGraph g).size⟩ =
      ⟨(g.mergeReport other).remap.map clamp, (g.mergeReport other).shadowed,
        g.size + (g.mergeReport other).added⟩ := by
  have hplace := foldl_place hids other.rules.toList [] (List.replicate other.size .invalid) []
    g.size (by simp [Graph.size])
  rw [size_ofGraph, size_ofGraph]
  simpa [ofGraph, ofRules, Graph.mergeReport] using hplace

/-- A merge that there are too few ids for adds as many rules. -/
theorem size_merge (hids : g.size ≤ RuleId.invalid.index) (other : Graph α) :
    ((merge (ofGraph other)).run.run (ofGraph g)).2.size = (g.merge other).2.size := by
  rw [run_merge (foldl_place_ofGraph hids other) rfl]
  have hlink (l : Ledger α) (report : MergeReport) :
      ((do link; return report : Update α MergeReport).run.run l).2.size = l.size := List.length_map _
  rw [hlink, Graph.merge_eq, Graph.size_link, Graph.size_joined]
  have hcopied := size_foldl_copy hids ((g.mergeReport other).remap.map clamp) other.rules.toList 0
    g.size (Nat.le_refl _) (fun index _ => by simp [Graph.mergeReport]) (ofGraph g)
  rw [size_ofGraph, Array.countP_toList] at hcopied
  rw [size_ofGraph]
  exact hcopied

theorem merge_inStep (hg : g.WellFormed) (hother : other.WellFormed)
    (hroom : (g.merge other).2.size ≤ RuleId.invalid.index) :
    InStep (merge (ofGraph other)) g (.ok (g.merge other).1, (g.merge other).2) := by
  have hjoined := hg.joined hother
  have hsize : (g.merge other).2.size = g.size + (g.mergeReport other).added := by
    rw [Graph.merge_eq, Graph.size_link, Graph.size_joined]
  have hids : g.size ≤ RuleId.invalid.index := by omega
  have hplaced := foldl_place_ofGraph hids other
  have hremap : (g.mergeReport other).remap.map clamp = (g.mergeReport other).remap := by
    have hcount : other.rules.toList.countP (fun rule => (g.shadow? rule).isNone) =
        (g.mergeReport other).added := by
      rw [Graph.mergeReport, Array.countP_toList]
    have hclamp := map_clamp_mergedIds other.rules.toList hids
      (by rw [hcount, ← hsize]; exact hroom)
    simp [Graph.mergeReport, hclamp]
  rw [hremap] at hplaced
  -- First all rules are placed, then copied, and then the references are linked.
  have hcopied : (ofGraph other).entries.foldl
      (copy (ofGraph g).size (g.mergeReport other).remap) (ofGraph g) =
      ofGraph { g with rules := g.rules ++ g.copies other } := by
    rw [size_ofGraph]
    refine (foldl_copy _ other.rules.toList 0 g (Nat.le_refl _) (fun index _ => ?_) ?_).trans ?_
    · simp [Graph.mergeReport]
    · rw [← Graph.names_joined]
      exact hjoined.distinct
    · have hplaceOf : placeOf (g.mergeReport other).remap = (g.mergeReport other).mapped := rfl
      rw [hplaceOf]
      congr 2
      refine congrArg _ (Array.toList_inj.mp ?_)
      simp [Graph.copies]
  have hlink : InStep (do
      link
      return ⟨(ofGraph { g with rules := g.rules ++ g.copies other }).size - (ofGraph g).size,
        (g.mergeReport other).shadowed, (g.mergeReport other).remap⟩ : Update α MergeReport)
      (g.joined other) (.ok (g.merge other).1, (g.merge other).2) := by
    refine link_inStep.bind ?_
    -- Linking adds no rule, so the report counts the copies.
    have hadded : (ofGraph { g with rules := g.rules ++ g.copies other }).size - (ofGraph g).size =
        (g.mergeReport other).added := by
      have hrules : Graph.size { g with rules := g.rules ++ g.copies other } =
          (g.joined other).size := rfl
      rw [size_ofGraph, size_ofGraph, hrules, Graph.size_joined, Nat.add_sub_cancel_left]
    rw [hadded]
    rfl
  exact (run_merge hplaced hcopied).trans hlink

end Merging

end Ledger

end RuleScript
