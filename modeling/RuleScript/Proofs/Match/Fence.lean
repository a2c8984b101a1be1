import RuleScript.Proofs.Match.Agreement
import RuleScript.Proofs.Match.CatchAll

/-!
# Elements that matches do not look behind

An element is a post if rules that are matched in front of it neither go past it nor look at what is
behind it.  Which rules are so is found from their kinds (`Fence`): some end in front of the post,
others end with it at the latest, and of some this holds only if they do not start at the post
itself.

Over two inputs that are the same up to a post, such rules come to the same
(`Graph.runWithin_tied`).  The rooms that repetitions have in the two inputs may be different, so
each loop has a lemma that tells where it stops before its room is used up.
-/

namespace RuleScript

variable {α : Type}

/-! ## Fences -/

/-- A post, and the rules that are held back by it. -/
structure Fence (α : Type) where
  post : α
  /-- Rules that end in front of the post. -/
  before : List RuleId
  /-- Rules that end with the post at the latest. -/
  upTo : List RuleId
  /-- Rules that end with the post at the latest unless they start at it. -/
  inside : List RuleId

namespace Fence

variable (F : Fence α)

def endsBefore (id : RuleId) : Bool := F.before.contains id

def endsWith (id : RuleId) : Bool := F.before.contains id || F.upTo.contains id

/-- Whether of rules one after the other each ends before the post, the last one perhaps only with
it. -/
def inOrder (last : RuleId → Bool) : List RuleId → Bool
  | [] => true
  | [id] => last id
  | id :: ids => F.endsBefore id && inOrder last ids

variable [Element α]

/-- Whether rules of a kind end in front of the post. -/
def holdsBefore : Kind α → Bool
  | .single value => value ≠ F.post
  | .sequence ids => F.inOrder F.endsBefore ids
  | .oneOf ids => ids.all F.endsBefore
  | .count one _ _ => F.endsBefore one
  | .not one | .condition one => F.endsWith one
  | .log _ _ guard => guard.all F.endsWith
  | .reference _ (some subject) => F.endsBefore subject
  | _ => false

/-- Whether rules of a kind end with the post at the latest. -/
def holdsUpTo (g : Graph α) : Kind α → Bool
  | .any min max => min ≤ 1 && max = 1
  | .single _ => true
  | .sequence ids => F.inOrder F.endsWith ids
  | .oneOf (first :: rest) =>
    F.endsWith first &&
      (rest.all F.endsWith ||
        g.kind? first = some (.single F.post) && rest.all F.inside.contains)
  | .skip stop _ _ => F.endsWith stop && g.kind? stop = some (.single F.post)
  | .reference _ (some subject) => F.endsWith subject
  | _ => false

/-- Whether rules of a kind end with the post at the latest unless they start at it. -/
def holdsInside (g : Graph α) : Kind α → Bool
  | .sequence (first :: rest) =>
    F.endsWith first && g.kind? first = some (.any 1 1) && F.inOrder F.endsWith rest
  | _ => false

/-- The post does hold back the rules of the fence. -/
structure Guards (g : Graph α) : Prop where
  before : ∀ id ∈ F.before, ∀ kind ∈ g.kind? id, F.holdsBefore kind
  upTo : ∀ id ∈ F.upTo, ∀ kind ∈ g.kind? id, F.holdsUpTo g kind
  inside : ∀ id ∈ F.inside, ∀ kind ∈ g.kind? id, F.holdsInside g kind

instance (g : Graph α) : Decidable (F.Guards g) :=
  decidable_of_iff ((∀ id ∈ F.before, ∀ kind ∈ g.kind? id, F.holdsBefore kind) ∧
      (∀ id ∈ F.upTo, ∀ kind ∈ g.kind? id, F.holdsUpTo g kind) ∧
      ∀ id ∈ F.inside, ∀ kind ∈ g.kind? id, F.holdsInside g kind)
    ⟨fun h => ⟨h.1, h.2.1, h.2.2⟩, fun h => ⟨h.before, h.upTo, h.inside⟩⟩

/-- Put a rule where its kind allows for, given the rules before it. -/
def enclose (g : Graph α) (id : RuleId) : Fence α :=
  match g.kind? id with
  | none => F
  | some kind =>
    if F.holdsBefore kind then { F with before := id :: F.before }
    else if F.holdsUpTo g kind then { F with upTo := id :: F.upTo }
    else if F.holdsInside g kind then { F with inside := id :: F.inside }
    else F

end Fence

/-- The rules that a post holds back.  A reference comes before what it stands for, and is taken to
end before the post. -/
def Graph.fence [Element α] (g : Graph α) (post : α) : Fence α :=
  let references := g.ids.filter fun id => match g.kind? id with
    | some (.reference ..) => true
    | _ => false
  g.ids.foldl (fun F id => F.enclose g id) ⟨post, references, [], []⟩

theorem Graph.post_fence [Element α] (g : Graph α) (post : α) : (g.fence post).post = post := by
  have henclose (F : Fence α) (id : RuleId) : (F.enclose g id).post = F.post := by
    rw [Fence.enclose]
    split
    · rfl
    · split_ifs <;> rfl
  have hall (ids : List RuleId) (F : Fence α) :
      (ids.foldl (fun F id => F.enclose g id) F).post = F.post := by
    induction ids generalizing F with
    | nil => rfl
    | cons id ids ih => exact (ih _).trans (henclose F id)
  exact hall _ _

/-! ## Two inputs -/

/-- Two runs do the same and end by a position at the latest. -/
def Tied (start bound : Nat) (run run' : Run Outcome) : Prop :=
  run.Compares .exact run' fun outcome outcome' =>
    outcome' = outcome ∧ outcome.Steps (fun _ stop _ => stop ≤ bound) start

namespace Tied

variable {start bound bound' : Nat} {run run' : Run Outcome}

protected theorem pure {len : Nat} {nodes : List Node} (h : start + len ≤ bound) :
    Tied start bound (pure (.success len nodes)) (pure (.success len nodes)) :=
  Run.Compares.pure ⟨rfl, h⟩

protected theorem failure : Tied start bound (pure .failure) (pure .failure) :=
  Run.Compares.pure ⟨rfl, trivial⟩

protected theorem self (h : run.Yields (·.Steps (fun _ stop _ => stop ≤ bound) start)) :
    Tied start bound run run := by
  rintro trace _ rfl
  rcases hresult : run.result trace with ⟨cause | outcome, after⟩
  · exact .inr ⟨rfl, rfl⟩
  · exact ⟨rfl, rfl, h.of_result hresult⟩

theorem mono (h : Tied start bound run run') (hbound : bound ≤ bound') :
    Tied start bound' run run' :=
  Run.Compares.mono h fun _ _ houtcome =>
    ⟨houtcome.1, Outcome.Steps.mono houtcome.2 fun _ _ hstop => Nat.le_trans hstop hbound⟩

/-- A failure is passed on, or goes on in the same way; so does a success. -/
theorem bind {start' bound' : Nat} {ok : Outcome → Prop} {next next' : Outcome → Run Outcome}
    (h : Tied start bound run run') (hyields : run.Yields ok)
    (hfailure : ok .failure → Tied start' bound' (next .failure) (next' .failure))
    (hsuccess : ∀ len nodes, ok (.success len nodes) → start + len ≤ bound →
      Tied start' bound' (next (.success len nodes)) (next' (.success len nodes))) :
    Tied start' bound' (run >>= next) (run' >>= next') := by
  refine Run.Compares.bind (Run.Compares.and_yields h hyields) fun outcome outcome' houtcome => ?_
  obtain ⟨⟨rfl, hstop⟩, hok⟩ := houtcome
  cases outcome' with
  | failure => exact hfailure hok
  | success len nodes => exact hsuccess len nodes hok hstop

theorem mapNodes (h : Tied start bound run run') (f : List Node → List Node) :
    Tied start bound ((·.mapNodes f) <$> run) ((·.mapNodes f) <$> run') := by
  refine Run.Compares.map h fun outcome outcome' houtcome => ?_
  obtain ⟨rfl, hstop⟩ := houtcome
  cases outcome' with
  | failure => exact ⟨rfl, trivial⟩
  | success len nodes => exact ⟨rfl, hstop⟩

theorem under (h : Tied start bound run run') (id : RuleId) :
    Tied start bound ((·.under id start) <$> run) ((·.under id start) <$> run') := by
  refine Run.Compares.map h fun outcome outcome' houtcome => ?_
  obtain ⟨rfl, hstop⟩ := houtcome
  cases outcome' with
  | failure => exact ⟨rfl, trivial⟩
  | success len nodes => exact ⟨rfl, hstop⟩

end Tied

/-! ### Loops -/

namespace Match

variable {sub sub' : RuleId → Nat → Run Outcome} {id : RuleId} {start bound s : Nat}

theorem firstOf_tied {ids : List RuleId}
    (hsub : ∀ id ∈ ids, Tied start bound (sub id start) (sub' id start)) :
    Tied start bound (firstOf sub start ids) (firstOf sub' start ids) := by
  induction ids with
  | nil => exact .failure
  | cons id ids ih =>
      refine (hsub id List.mem_cons_self).bind (.trivial _) (fun _ => ?_) fun _ _ _ hstop =>
        .pure hstop
      exact ih fun id hid => hsub id (List.mem_cons_of_mem _ hid)

/-- Rules one after the other, each of which ends before the post, but perhaps the last one. -/
theorem inSequence_tied {F : Fence α} {last : RuleId → Bool} (hbound : s ≤ bound)
    (hbefore : ∀ id pos, F.endsBefore id → pos ≤ s → Tied pos s (sub id pos) (sub' id pos))
    (hlast : ∀ id pos, last id → pos ≤ s → Tied pos bound (sub id pos) (sub' id pos))
    {ids : List RuleId} (h : F.inOrder last ids) (len : Nat) (nodes : Array Node)
    (hlen : start + len ≤ s) :
    Tied start bound (inSequence sub start ids len nodes) (inSequence sub' start ids len nodes) := by
  induction ids generalizing len nodes with
  | nil => exact .pure (Nat.le_trans hlen hbound)
  | cons id ids ih =>
      cases ids with
      | nil =>
          refine (hlast id _ h hlen).bind (.trivial _) (fun _ => .failure) fun more _ _ hstop => ?_
          exact .pure (by rwa [Nat.add_assoc] at hstop)
      | cons next ids =>
          obtain ⟨hid, hrest⟩ := Bool.and_eq_true_iff.mp h
          refine (hbefore id _ hid hlen).bind (.trivial _) (fun _ => .failure) fun more _ _ hstop => ?_
          exact ih hrest _ _ (by rwa [Nat.add_assoc] at hstop)

/-- A repetition of what ends before the post does not use its room up. -/
theorem repeated_tied {label : String} {min max : Nat}
    (hsub : ∀ pos ≤ s, Tied pos s (sub id pos) (sub' id pos)) (room room' reps len : Nat)
    (nodes : Array Node) (hlen : start + len ≤ s) (hroom : s < start + len + room)
    (hroom' : s < start + len + room') :
    Tied start s (repeated sub label id min max start room reps len nodes)
      (repeated sub' label id min max start room' reps len nodes) := by
  induction room generalizing room' reps len nodes with
  | zero => omega
  | succ room ih =>
      cases room' with
      | zero => omega
      | succ room' =>
          -- The repetition stops where the last round has stopped, which is before the post.
          have henough (reps : Nat) (nodes : Array Node) :
              (enough min reps len nodes).Steps (fun _ stop _ => stop ≤ s) start := by
            rw [enough]
            split
            · trivial
            · exact hlen
          have hend (reps : Nat) (nodes : Array Node) :
              Tied start s (pure (enough min reps len nodes)) (pure (enough min reps len nodes)) :=
            .self (.pure (henough reps nodes))
          rw [repeated, repeated, repetition, repetition]
          split
          · exact hend _ _
          · refine (hsub _ hlen).bind (.trivial _) (fun _ => hend _ _) fun more found _ hstop => ?_
            cases more with
            | zero =>
                refine .self ?_
                show (if max = 0 then _ else _ : Run Outcome).Yields _
                split
                · exact (Run.Yields.record _).bind fun _ _ => .pure trivial
                · exact .pure (henough _ _)
            | succ more => exact ih _ _ _ _ (by omega) (by omega) (by omega)

/-- A skip to the post gets no further than that. -/
theorem skipTo_tied {stopBefore failOnEnd : Bool}
    (hsub : ∀ pos ≤ s, Tied pos (s + 1) (sub id pos) (sub' id pos))
    (hpost : (sub id s).Yields (· ≠ .failure)) (room room' passed : Nat)
    (hpassed : start + passed ≤ s) (hroom : s ≤ start + passed + room)
    (hroom' : s ≤ start + passed + room') :
    Tied start (s + 1) (skipTo sub id stopBefore failOnEnd start room passed)
      (skipTo sub' id stopBefore failOnEnd start room' passed) := by
  have hstop {beyond beyond' : Run Outcome} {passed : Nat} (hpassed : start + passed ≤ s)
      (hbeyond : start + passed < s → Tied start (s + 1) beyond beyond') :
      Tied start (s + 1) (stopOr sub id stopBefore start passed beyond)
        (stopOr sub' id stopBefore start passed beyond') := by
    -- At the post the stop matches, so the skip does not get past it.
    have hyields : (sub id (start + passed)).Yields
        fun outcome => start + passed = s → outcome ≠ .failure := by
      by_cases hs : start + passed = s
      · rw [hs]
        exact hpost.mono (fun _ h => h) fun _ h _ => h
      · exact (Run.Yields.trivial _).mono (fun _ h => h) fun _ _ h => absurd h hs
    refine (hsub _ hpassed).bind hyields (fun hfailure => hbeyond ?_) fun len nodes _ hstop => ?_
    · exact Nat.lt_of_le_of_ne hpassed fun hs => hfailure hs rfl
    · cases stopBefore with
      | true => exact .pure (by omega)
      | false => exact .pure (by omega)
  induction room generalizing room' passed with
  | zero =>
      cases room' with
      | zero => exact hstop hpassed fun hlt => by omega
      | succ room' => exact hstop hpassed fun hlt => by omega
  | succ room ih =>
      cases room' with
      | zero => exact hstop hpassed fun hlt => by omega
      | succ room' => exact hstop hpassed fun hlt => ih _ _ (by omega) (by omega) (by omega)

end Match

/-! ### Rules -/

namespace Fence

variable (F : Fence α)

/-- Two inputs are the same up to the post. -/
def SameUpTo (u w : Array α) (s : Nat) : Prop :=
  (∀ pos ≤ s, w[pos]? = u[pos]?) ∧ u[s]? = some F.post

/-- The rules of a fence do the same over both inputs. -/
structure SubsTied (s : Nat) (sub sub' : RuleId → Nat → Run Outcome) : Prop where
  before : ∀ id pos, F.endsBefore id → pos ≤ s → Tied pos s (sub id pos) (sub' id pos)
  upTo : ∀ id pos, F.endsWith id → pos ≤ s → Tied pos (s + 1) (sub id pos) (sub' id pos)
  inside : ∀ id pos, F.inside.contains id → pos < s → Tied pos (s + 1) (sub id pos) (sub' id pos)

variable {F} {u w : Array α} {s start : Nat}

theorem SameUpTo.lt_size (h : F.SameUpTo u w s) (hstart : start ≤ s) :
    start < u.size ∧ start < w.size := by
  have hu := (Array.getElem?_eq_some_iff.mp h.2).1
  have hw := (Array.getElem?_eq_some_iff.mp ((h.1 s (Nat.le_refl s)).trans h.2)).1
  omega

variable [Element α] {g : Graph α} {sub sub' : RuleId → Nat → Run Outcome} {id : RuleId}

open Match

theorem single_tied (h : F.SameUpTo u w s) (hstart : start ≤ s) {value : α} {bound : Nat}
    (hbound : u[start]? = some value → start + 1 ≤ bound) :
    Tied start bound (Match.kind g u sub id (.single value) start)
      (Match.kind g w sub' id (.single value) start) := by
  have heq : Match.kind g w sub' id (.single value) start =
      Match.kind g u sub id (.single value) start := by
    rw [Match.kind, Match.kind, element, element, h.1 start hstart]
  rw [heq]
  refine .self ((single_exact g u id value start).mono (fun _ h => h) ?_)
  rintro _ rfl
  split
  · rename_i hvalue
    exact hbound hvalue
  · trivial

/-- Rules that end before the post do the same over both inputs. -/
theorem kind_tied_before (h : F.SameUpTo u w s) (hsub : F.SubsTied s sub sub')
    (hstart : start ≤ s) {kind : Kind α} (hkind : F.holdsBefore kind) :
    Tied start s (Match.kind g u sub id kind start) (Match.kind g w sub' id kind start) := by
  obtain ⟨hu, hw⟩ := h.lt_size (Nat.le_refl s)
  cases kind with
  | single value =>
      refine single_tied h hstart fun hvalue => Nat.lt_of_le_of_ne hstart ?_
      -- The two inputs differ behind the post only, and the post is not the element asked for.
      rintro rfl
      cases h.2.symm.trans hvalue
      simp [holdsBefore] at hkind
  | sequence ids =>
      exact (inSequence_tied (Nat.le_refl s) hsub.before hsub.before hkind 0 #[] hstart).under id
  | oneOf ids =>
      refine (firstOf_tied fun one hone => ?_).under id
      exact hsub.before one start (List.all_eq_true.mp hkind one hone) hstart
  | count one min max =>
      exact (repeated_tied (fun pos hpos => hsub.before one pos hkind hpos) _ _ 0 0 #[] hstart
        (by omega) (by omega)).under id
  | not one =>
      exact (hsub.upTo one start hkind hstart).bind (.trivial _) (fun _ => .pure hstart)
        fun _ _ _ _ => .failure
  | condition one =>
      exact (hsub.upTo one start hkind hstart).bind (.trivial _) (fun _ => .failure)
        fun _ _ _ _ => .pure hstart
  | log severity message guard =>
      have hentry (guarded : Outcome) : Tied start s (entryOver g id severity message start guarded)
          (entryOver g id severity message start guarded) := by
        refine .self ((entryOver_zeroWidth g id severity message start guarded).mono
          (fun _ h => h) ?_)
        rintro _ ⟨nodes, rfl⟩
        exact hstart
      cases guard with
      | none => exact hentry (.success 0 [])
      | some guard =>
          exact (hsub.upTo guard start hkind hstart).bind (.trivial _) (fun _ => hentry _)
            fun _ _ _ _ => hentry _
  | reference target subject =>
      cases subject with
      | none => cases hkind
      | some subject => exact hsub.before subject start hkind hstart
  | _ => cases hkind

/-- One element of any value is taken wherever there is one. -/
theorem any_yields {min : Nat} (hmin : min ≤ 1) (hstart : start < u.size) :
    Match.kind g u sub id (.any min 1) start = pure ((Outcome.success 1 []).under id start) := by
  have hrest : ¬ u.size - start < min := by omega
  have hone : Nat.min (u.size - start) 1 = 1 := Nat.min_eq_right (by omega)
  rw [Match.kind, anyOf, if_neg hrest, if_neg Nat.one_ne_zero, hone]

/-- The post is found where it stands. -/
theorem promises_post (h : F.SameUpTo u w s) {post : RuleId}
    (hkind : g.kind? post = some (.single F.post)) : g.Promises u post s (· ≠ .failure) := by
  obtain ⟨rule, hrule, hrulekind⟩ := Option.map_eq_some_iff.mp hkind
  refine Graph.promises_of_rule hrule fun sub _ => ?_
  rw [hrulekind]
  refine (single_exact g u post F.post s).mono (fun _ h => h) ?_
  rintro _ rfl
  rw [if_pos h.2]
  exact Outcome.noConfusion

/-- Rules that end with the post do the same over both inputs. -/
theorem kind_tied_upTo (h : F.SameUpTo u w s) (hsub : F.SubsTied s sub sub')
    (hkeeps : g.Keeps u sub) (hstart : start ≤ s) {kind : Kind α} (hkind : F.holdsUpTo g kind) :
    Tied start (s + 1) (Match.kind g u sub id kind start) (Match.kind g w sub' id kind start) := by
  obtain ⟨hu, hw⟩ := h.lt_size (Nat.le_refl s)
  cases kind with
  | any min max =>
      rw [holdsUpTo, Bool.and_eq_true, decide_eq_true_eq, decide_eq_true_eq] at hkind
      obtain ⟨hmin, rfl⟩ := hkind
      rw [any_yields hmin (by omega), any_yields hmin (by omega)]
      exact .pure (Nat.succ_le_succ hstart)
  | single value => exact single_tied h hstart fun _ => Nat.succ_le_succ hstart
  | sequence ids =>
      exact (inSequence_tied (Nat.le_succ s) hsub.before hsub.upTo hkind 0 #[] hstart).under id
  | oneOf ids =>
      cases ids with
      | nil => cases hkind
      | cons first rest =>
          rw [holdsUpTo, Bool.and_eq_true, Bool.or_eq_true, Bool.and_eq_true,
            decide_eq_true_eq] at hkind
          obtain ⟨hfirst, hrest | ⟨hpost, hrest⟩⟩ := hkind
          · refine (firstOf_tied fun one hone => hsub.upTo one start ?_ hstart).under id
            rcases List.mem_cons.mp hone with rfl | hone
            · exact hfirst
            · exact List.all_eq_true.mp hrest one hone
          · -- At the post itself the first rule matches, so the others only start before it.
            refine Tied.under ?_ id
            have hyields : (sub first start).Yields fun outcome => start = s → outcome ≠ .failure := by
              by_cases hs : start = s
              · rw [hs]
                exact (hkeeps first s _ (promises_post h hpost)).mono (fun _ h => h) fun _ h _ => h
              · exact (Run.Yields.trivial _).mono (fun _ h => h) fun _ _ h => absurd h hs
            refine (hsub.upTo first start hfirst hstart).bind hyields (fun hfailure => ?_)
              fun _ _ _ hstop => .pure hstop
            have hlt : start < s := Nat.lt_of_le_of_ne hstart fun hs => hfailure hs rfl
            exact firstOf_tied fun one hone =>
              hsub.inside one start (List.all_eq_true.mp hrest one hone) hlt
  | skip stop stopBefore failOnEnd =>
      rw [holdsUpTo, Bool.and_eq_true, decide_eq_true_eq] at hkind
      obtain ⟨hstop, hpost⟩ := hkind
      exact (skipTo_tied (fun pos hpos => hsub.upTo stop pos hstop hpos)
        (hkeeps stop s _ (promises_post h hpost)) _ _ 0 hstart (by omega) (by omega)).under id
  | reference target subject =>
      cases subject with
      | none => cases hkind
      | some subject => exact hsub.upTo subject start hkind hstart
  | _ => cases hkind

/-- Rules that start before the post and end with it do the same over both inputs. -/
theorem kind_tied_inside (h : F.SameUpTo u w s) (hsub : F.SubsTied s sub sub')
    (hkeeps : g.Keeps u sub) (hstart : start < s) {kind : Kind α} (hkind : F.holdsInside g kind) :
    Tied start (s + 1) (Match.kind g u sub id kind start) (Match.kind g w sub' id kind start) := by
  obtain ⟨hu, -⟩ := h.lt_size (Nat.le_of_lt hstart)
  cases kind with
  | sequence ids =>
      cases ids with
      | nil => cases hkind
      | cons first rest =>
          rw [holdsInside, Bool.and_eq_true, Bool.and_eq_true, decide_eq_true_eq] at hkind
          obtain ⟨⟨hfirst, hany⟩, hrest⟩ := hkind
          have hone : g.Promises u first start (·.Steps (fun start stop _ => stop = start + 1) start) := by
            obtain ⟨rule, hrule, hrulekind⟩ := Option.map_eq_some_iff.mp hany
            refine Graph.promises_of_rule hrule fun sub _ => ?_
            rw [hrulekind, any_yields (Nat.le_refl 1) hu]
            exact .pure rfl
          refine Tied.under ?_ id
          refine (hsub.upTo first start hfirst (Nat.le_of_lt hstart)).bind (hkeeps first start _ hone)
            (fun _ => .failure) fun len nodes hlen _ => ?_
          -- One element is taken, so the rest starts at the post at the latest.
          obtain rfl : len = 1 := Nat.add_left_cancel hlen
          exact inSequence_tied (Nat.le_succ s) hsub.before hsub.upTo hrest _ _ (by omega)
  | _ => cases hkind

/-- Over inputs that are the same up to the post, the rules of a fence do the same. -/
theorem runWithin_tied (hF : F.Guards g) (h : F.SameUpTo u w s) (limit depth : Nat) :
    F.SubsTied s (g.runWithin u limit depth) (g.runWithin w limit depth) := by
  have hunknown (depth : Nat) {id : RuleId} {start bound : Nat} (hrule : g.rule? id = none) :
      Tied start bound (g.runWithin u limit depth id start)
        (g.runWithin w limit depth id start) := by
    rw [Graph.runWithin_unknown hrule, Graph.runWithin_unknown hrule]
    exact .self ((Run.Yields.record _).bind fun _ _ => .pure trivial)
  induction depth with
  | zero =>
      have htied (id : RuleId) (start bound : Nat) :
          Tied start bound (g.runWithin u limit 0 id start) (g.runWithin w limit 0 id start) := by
        cases hrule : g.rule? id with
        | none => exact hunknown 0 hrule
        | some rule =>
            rw [Graph.runWithin_zero hrule, Graph.runWithin_zero hrule]
            exact .self (.throw trivial)
      exact ⟨fun id pos _ _ => htied id pos _, fun id pos _ _ => htied id pos _,
        fun id pos _ _ => htied id pos _⟩
  | succ depth ih =>
      have hkeeps : g.Keeps u (g.runWithin u limit depth) := fun _ _ _ h => h limit depth
      -- The kind decides; pruning does not move the end.
      have htied {id : RuleId} {start bound : Nat}
          (hkind : ∀ kind, g.kind? id = some kind → Tied start bound
            (Match.kind g u (g.runWithin u limit depth) id kind start)
            (Match.kind g w (g.runWithin w limit depth) id kind start)) :
          Tied start bound (g.runWithin u limit (depth + 1) id start)
            (g.runWithin w limit (depth + 1) id start) := by
        cases hrule : g.rule? id with
        | none => exact hunknown (depth + 1) hrule
        | some rule =>
            rw [Graph.runWithin_succ hrule, Graph.runWithin_succ hrule]
            exact (hkind rule.kind (Graph.kind?_eq_some hrule)).mapNodes _
      have hbefore (id : RuleId) (pos : Nat) (hid : F.endsBefore id) (hpos : pos ≤ s) :
          Tied pos s (g.runWithin u limit (depth + 1) id pos)
            (g.runWithin w limit (depth + 1) id pos) :=
        htied fun kind hkind => kind_tied_before h ih hpos
          (hF.before id (List.contains_iff_mem.mp hid) kind hkind)
      refine ⟨hbefore, fun id pos hid hpos => ?_, fun id pos hid hpos => ?_⟩
      · rcases Bool.or_eq_true_iff.mp hid with hid | hid
        · exact (hbefore id pos hid hpos).mono (Nat.le_succ s)
        · exact htied fun kind hkind => kind_tied_upTo h ih hkeeps hpos
            (hF.upTo id (List.contains_iff_mem.mp hid) kind hkind)
      · exact htied fun kind hkind => kind_tied_inside h ih hkeeps hpos
          (hF.inside id (List.contains_iff_mem.mp hid) kind hkind)

end Fence

end RuleScript
