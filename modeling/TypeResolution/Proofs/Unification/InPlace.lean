import TypeResolution.Proofs.Search.Feeding
import TypeResolution.Unification.Match

/-!
# Matching in one environment

The matcher hands a list of bindings from one search to the next, and nobody ever has to take a
binding back. Here is the other way to do it: there is a single environment, a name is bound for as
long as a scope lasts and removed when the scope returns, and whoever finds a match calls a
continuation, which answers whether it wants more. All pruning is done with flags that are noted on
the way.

`InPlace.matchSlots` is this program, and `InPlace.matchSlots_eq` says that it is the matcher: if
the continuation leaves the environment as it finds it, then it is called with the environments that
`slotBindings` finds, in order and for as long as it wants more, and when the program returns, for
whatever reason, the environment is the one from before.
-/

namespace TypeResolution

open Search

/-! ## Scopes

A scope binds a name and takes it back. It does so on every way out: when its body has seen enough,
when it fails, when it runs out of fuel. What the name stood for before is put back, so the same
would be true of a name that was bound already. -/

namespace Bindings

/-- Removes a name. -/
def unbind (b : Bindings) (name : String) : Bindings := b.filter fun p => decide (p.1 ≠ name)

/-- Binds a name, and nothing is left of what it was bound to before. -/
def assign (b : Bindings) (name : String) (t : Ty) : Bindings := (b.unbind name).bind name t

/-- Unbinding what is not bound changes nothing. -/
theorem unbind_of_get?_eq_none {b : Bindings} {name : String} (h : b.get? name = none) :
    b.unbind name = b := by
  refine List.filter_eq_self.mpr fun p hp => decide_eq_true fun heq => ?_
  have hbeq := List.lookup_eq_none_iff.mp h p hp
  rw [heq, bne_self_eq_false] at hbeq
  cases hbeq

/-- Assigning to a name that is not bound binds it. -/
theorem assign_of_get?_eq_none {b : Bindings} {name : String} (h : b.get? name = none) (t : Ty) :
    b.assign name t = b.bind name t := by
  rw [assign, unbind_of_get?_eq_none h]

/-- Binding a name and unbinding it leads back. -/
theorem unbind_bind {b : Bindings} {name : String} (h : b.get? name = none) (t : Ty) :
    (b.bind name t).unbind name = b := by
  have hself : (b.bind name t).unbind name = b.unbind name :=
    List.filter_cons_of_neg (by simp)
  rw [hself, unbind_of_get?_eq_none h]

end Bindings

namespace InPlace

variable {ν ι σ : Type}

/-- The environment that is left behind, and the reply of the continuation. -/
structure Outcome (σ : Type) where
  /-- the environment -/
  env : Bindings
  /-- the memory of the continuation and its answer -/
  reply : Reply ResolutionError σ

/-- What to do with an item, which comes with the environment as it is then. The continuation may
change the environment, and has a memory of its own. -/
abbrev Continuation (ι σ : Type) := ι → σ → Outcome σ

/-- Goes on after an outcome that wants more, with the environment that was left. -/
def Outcome.goOn (out : Outcome σ) (next : Bindings → σ → Outcome σ) : Outcome σ :=
  match out.reply with
  | (m, some (.ok .finished)) => next out.env m
  | _ => out

/-- Nothing was found, so more is wanted. -/
def nothing (b : Bindings) (m : σ) : Outcome σ := ⟨b, (m, some (.ok .finished))⟩

/-- The matching fails. -/
def fail (e : ResolutionError) (b : Bindings) (m : σ) : Outcome σ := ⟨b, (m, some (.error e))⟩

/-- The fuel does not suffice. -/
def giveUp (b : Bindings) (m : σ) : Outcome σ := ⟨b, (m, none)⟩

/-- Binds a name for as long as the scope lasts. However the scope returns, the name then stands for
what it stood for before. -/
def whileBound (name : String) (t : Ty) (b : Bindings) (scope : Bindings → Outcome σ) : Outcome σ :=
  let out := scope (b.assign name t)
  match b.get? name with
  | some before => { out with env := out.env.assign name before }
  | none => { out with env := out.env.unbind name }

/-- The continuation that leaves the environment of an item as it is, and replies as told. -/
def restoring (env : ι → Bindings) (reply : ι → σ → Reply ResolutionError σ) : Continuation ι σ :=
  fun i m => ⟨env i, reply i m⟩

/-- Acts on what a probe found out: goes on, with the environment that the probe left, if it was not
called. The answer of the probe itself goes no further. -/
def Outcome.unlessFound (probed : Outcome Bool) (m : σ) (next : Bindings → Outcome σ) : Outcome σ :=
  match probed.reply with
  | (called, some (.ok _)) => if called then nothing probed.env m else next probed.env
  | (_, some (.error e)) => fail e probed.env m
  | (_, none) => giveUp probed.env m

/-- The continuation that notes that it was called. -/
def noting (k : Continuation ι σ) : Continuation ι (σ × Bool) := fun i n =>
  let out := k i n.1
  ⟨out.env, ((out.reply.1, true), out.reply.2)⟩

/-- The continuation that keeps a record of the items that it is called with. -/
def recording (k : Continuation ι σ) : Continuation ι (σ × List ι) := fun i n =>
  let out := k i n.1
  ⟨out.env, ((out.reply.1, n.2 ++ [i]), out.reply.2)⟩

/-- The outcome with another reply, made from the one that it has. -/
def Outcome.mapReply {τ : Type}
    (f : Reply ResolutionError σ → Reply ResolutionError τ) (out : Outcome σ) : Outcome τ :=
  ⟨out.env, f out.reply⟩

/-! ## Matching

The functions have the same cases as the searches of the same names. Where these return a search, a
function takes a continuation; where these go on from one item to the next, it calls itself in the
continuation. Nothing is collected anywhere. -/

section

variable (c : Catalog) (fuel : Nat)

/-- Goes on if a fuelled test passes. -/
def guard (test : Fueled Bool) (b : Bindings) (m : σ) (next : Unit → Outcome σ) : Outcome σ :=
  match test with
  | none => giveUp b m
  | some true => next ()
  | some false => nothing b m

/-- Goes on with the structural form of a type, or fails if it has none. -/
def withStructural (t : Ty) (b : Bindings) (m : σ) (next : Ty → Outcome σ) : Outcome σ :=
  match t.structuralForm with
  | .error e => fail (.instantiate e) b m
  | .ok t => next t

/-- A later occurrence of a parameter. -/
def compareBound (v : Variance) (candidate bound : Ty) (k : Continuation (Bindings × Ty) σ)
    (b : Bindings) (m : σ) : Outcome σ :=
  withStructural candidate b m fun candidate =>
    withStructural bound b m fun bound =>
      guard (related c fuel v candidate bound) b m fun _ => k (b, bound) m

/-- Rebuilds the instance of a target from the arguments that unification gave. -/
def rebuild (v : Variance) (target : DefIndex) (candidate : Ty) (args : List Ty)
    (k : Continuation (Bindings × Ty) σ) (b : Bindings) (m : σ) : Outcome σ :=
  match c.instantiate fuel target args with
  | none => giveUp b m
  | some (.error _) => nothing b m
  | some (.ok result) => guard (isRelative c fuel v result candidate) b m fun _ => k (b, result) m

/-- One site after another, for as long as more is wanted. -/
def eachSite (body : Site → Bindings → σ → Outcome σ) : List Site → Bindings → σ → Outcome σ
  | [], b, m => nothing b m
  | site :: rest, b, m => (body site b m).goOn (eachSite body rest)

/-- Calls the continuation with every instance of a target that the candidate can be unified with.
-/
def unifyInstance (outer v : Variance) (target : DefIndex) (args : List Constraint)
    (unify : Variance → Site → Continuation (Bindings × List Ty) σ → Bindings → σ → Outcome σ)
    (candidate : Ty) (k : Continuation (Bindings × Ty) σ) (b : Bindings) (m : σ) : Outcome σ :=
  withStructural candidate b m fun candidate =>
    match Marker.ofDefinition? target with
    | some .valueType => if c.isValueType candidate then k (b, candidate) m else nothing b m
    | some .referenceType => if c.isReferenceType candidate then k (b, candidate) m else nothing b m
    | _ =>
      match checkArgCount c target args.length with
      | .error e => fail e b m
      | .ok () =>
        let inForce := outer.nest v
        match sites c fuel candidate target inForce args b with
        | none => giveUp b m
        | some all =>
          eachSite (fun site =>
            unify inForce site fun p => rebuild c fuel inForce target candidate p.2 k p.1) all b m

mutual
/-- Unifies a constraint with an argument in structural form. -/
def unifyArg (outer : Variance) (arg : Ty) :
    Constraint → Continuation (Bindings × Ty) σ → Bindings → σ → Outcome σ
  | .wildcard, k, b, m => k (b, arg) m
  | .param name v, k, b, m =>
    match b.get? name with
    | none => whileBound name arg b fun b => k (b, arg) m
    | some bound => compareBound c fuel (outer.nest v) arg bound k b m
  | .instanceOf target v args, k, b, m =>
    unifyInstance c fuel outer v target args (fun inForce site => unifySite inForce site args)
      arg k b m
  | .negation inner, _, b, m => fail (.unsupportedConstraint (.negation inner) .argument) b m

/-- Unifies constraints with the arguments of a site. -/
def unifySite (outer : Variance) (site : Site) :
    List Constraint → Continuation (Bindings × List Ty) σ → Bindings → σ → Outcome σ
  | [], k, b, m => k (b, []) m
  | constraint :: rest, k, b, m =>
    match site with
    | [] => k (b, []) m
    | arg :: others =>
      withStructural arg b m fun arg =>
        unifyArg outer arg constraint
          (fun p => unifySite outer others rest (fun q => k (q.1, p.2 :: q.2)) p.1) b m
end

mutual
/-- Calls the continuation with every environment in which one constraint accepts a candidate. For
a negation, the inside is probed first; the probe is a continuation that stops at once, and its
answer goes no further. -/
def matchOne (outer : Variance) (candidate : Ty) :
    Constraint → (σ : Type) → Continuation Bindings σ → Bindings → σ → Outcome σ
  | .wildcard, _, k, b, m => k b m
  | .param name v, _, k, b, m =>
    match b.get? name with
    | none => whileBound name candidate b fun b => k b m
    | some bound => compareBound c fuel (outer.nest v) candidate bound (fun p => k p.1) b m
  | .instanceOf target v args, _, k, b, m =>
    unifyInstance c fuel outer v target args
      (fun inForce site => unifySite c fuel inForce site args)
      candidate (fun p => k p.1) b m
  | .negation inner, _, k, b, m =>
    (matchAll outer candidate inner Bool (restoring id probe) b false).unlessFound m fun b => k b m

/-- Calls the continuation with every environment in which all constraints accept a candidate. -/
def matchAll (outer : Variance) (candidate : Ty) :
    List Constraint → (σ : Type) → Continuation Bindings σ → Bindings → σ → Outcome σ
  | [], _, k, b, m => k b m
  | constraint :: rest, σ, k, b, m =>
    matchOne outer candidate constraint σ (matchAll outer candidate rest σ k) b m
end

/-- Calls the continuation with every environment in which every slot accepts the candidate at its
position. A definitive slot keeps two flags, one for each alternative and one for the whole. -/
def matchSlots : List Slot → List Ty → (σ : Type) → Continuation Bindings σ → Bindings → σ →
    Outcome σ
  | [], _, _, k, b, m => k b m
  | _ :: _, [], _, _, b, m => nothing b m
  | slot :: slots, candidate :: rest, σ, k, b, m =>
    if slot.definitive then
      let alternative : Continuation Bindings (σ × Bool) := fun b n =>
        (matchSlots slots rest (σ × Bool) (noting k) b (n.1, false)).mapReply (afterAlternative n.2)
      (matchAll c fuel .ambivariant candidate slot.constraints (σ × Bool) alternative b
        (m, false)).mapReply afterChoice
    else
      matchAll c fuel .ambivariant candidate slot.constraints σ (matchSlots slots rest σ k) b m

end

/-! ## Continuations that restore the environment

A continuation may do with the environment what it likes, as long as it is the old one when it
returns. Then it is known by its replies. -/

/-- The continuation leaves the environment as it finds it. -/
def Restores (env : ι → Bindings) (k : Continuation ι σ) : Prop := ∀ i m, (k i m).env = env i

/-- What a continuation replies, apart from the environment that it leaves. -/
def Continuation.replies (k : Continuation ι σ) (i : ι) (m : σ) : Reply ResolutionError σ :=
  (k i m).reply

/-- A continuation that restores the environment is determined by what it replies. -/
theorem Restores.eq_restoring {env : ι → Bindings} {k : Continuation ι σ} (h : Restores env k) :
    k = restoring env k.replies := by
  funext i m
  rw [restoring, ← h i m, Continuation.replies]

/-- It still restores the environment when it keeps a record. -/
theorem Restores.recording {env : ι → Bindings} {k : Continuation ι σ} (h : Restores env k) :
    Restores env (recording k) :=
  fun i n => h i n.1

/-- Its replies are then those of the record. -/
theorem replies_recording (k : Continuation ι σ) :
    (recording k).replies = Search.recording k.replies :=
  rfl

/-! ## The program is the matcher

Each part of the program, called with a continuation that restores the environment, restores it too,
and its reply is that of the search of the same name, fed to the continuation. In the induction, the
continuation of a part is the rest of the program, which is restoring by the hypothesis for the
rest. -/

/-- Going on from an environment that was restored is going on with its reply. -/
theorem Outcome.goOn_eq {b : Bindings} {next : Bindings → σ → Outcome σ}
    {f : σ → Reply ResolutionError σ} (h : ∀ m, next b m = ⟨b, f m⟩) (r : Reply ResolutionError σ) :
    (Outcome.mk b r).goOn next = ⟨b, r.goOn f⟩ := by
  rcases r with ⟨m, _ | e | _ | _⟩
  · rfl
  · rfl
  · exact h m
  · rfl

/-- The same for going on behind a probe that was not called. -/
theorem Outcome.unlessFound_eq {b : Bindings} {m : σ} {next : Bindings → Outcome σ}
    {f : Unit → Reply ResolutionError σ} (h : next b = ⟨b, f ()⟩) (r : Reply ResolutionError Bool) :
    (Outcome.mk b r).unlessFound m next = ⟨b, Search.unlessFound r m f⟩ := by
  rcases r with ⟨_ | _, _ | e | flow⟩
  case false.some.ok => exact h
  all_goals rfl

/-- A name that was not bound before a scope is not bound behind it. -/
theorem whileBound_eq {b : Bindings} {name : String} (hb : b.get? name = none) {t : Ty}
    {scope : Bindings → Outcome σ} {r : Reply ResolutionError σ}
    (h : scope (b.bind name t) = ⟨b.bind name t, r⟩) : whileBound name t b scope = ⟨b, r⟩ := by
  rw [whileBound, hb, Bindings.assign_of_get?_eq_none hb, h]
  exact congrArg (Outcome.mk · r) (Bindings.unbind_bind hb t)

section

variable (c : Catalog) (fuel : Nat) {b : Bindings} {m : σ}

/-- A guard calls the continuation if the test holds. -/
theorem guard_eq {k : ι → σ → Reply ResolutionError σ} (test : Fueled Bool) (i : ι) :
    guard test b m (fun _ => ⟨b, k i m⟩) =
      ⟨b, (Search.guard test i : Search ν _ _).feed k m⟩ := by
  rcases test with _ | _ | _
  · rfl
  · rfl
  · exact congrArg (Outcome.mk b) (feed_single k i m).symm

/-- A type is read before anything is done with it. -/
theorem withStructural_eq {k : ι → σ → Reply ResolutionError σ} (t : Ty) {next : Ty → Outcome σ}
    {f : Ty → Search ν ResolutionError ι} (h : ∀ t, next t = ⟨b, (f t).feed k m⟩) :
    withStructural t b m next = ⟨b, (TypeResolution.withStructural t f).feed k m⟩ := by
  rw [withStructural, TypeResolution.withStructural]
  cases t.structuralForm with
  | error e => rfl
  | ok t => exact h t

variable {k : Bindings × Ty → σ → Reply ResolutionError σ}

/-- A bound name is compared with the candidate. -/
theorem compareBound_eq (v : Variance) (candidate bound : Ty) :
    compareBound c fuel v candidate bound (restoring Prod.fst k) b m =
      ⟨b, (TypeResolution.compareBound c fuel v candidate bound : Search ν _ _).feed
        (fun t => k (b, t)) m⟩ :=
  withStructural_eq candidate fun _ => withStructural_eq bound fun bound =>
    guard_eq (k := fun t => k (b, t)) _ bound

/-- An instance is rebuilt and compared. -/
theorem rebuild_eq (v : Variance) (target : DefIndex) (candidate : Ty) (args : List Ty) :
    rebuild c fuel v target candidate args (restoring Prod.fst k) b m =
      ⟨b, (TypeResolution.rebuild c fuel v target candidate args : Search ν _ _).feed
        (fun t => k (b, t)) m⟩ := by
  rw [rebuild, TypeResolution.rebuild]
  rcases c.instantiate fuel target args with _ | e | result
  · rfl
  · rfl
  · exact guard_eq (k := fun t => k (b, t)) _ result

/-- Sites are tried in order, each with the same continuation. -/
theorem eachSite_eq {k : ι → σ → Reply ResolutionError σ}
    {body : Site → Bindings → σ → Outcome σ} {f : Site → Search ν ResolutionError ι}
    (h : ∀ site m, body site b m = ⟨b, (f site).feed k m⟩) (sites : List Site) :
    eachSite body sites b m = ⟨b, (bindList sites f).feed k m⟩ := by
  induction sites generalizing m with
  | nil => rfl
  | cons site rest ih =>
    rw [eachSite, bindList, feed_append, h]
    exact Outcome.goOn_eq (fun m => ih) _

/-- An instance is unified at each of its sites, if the unification of sites is the search. -/
theorem unifyInstance_eq (outer v : Variance) (target : DefIndex) (args : List Constraint)
    {unify : Variance → Site → Continuation (Bindings × List Ty) σ → Bindings → σ → Outcome σ}
    {find : Variance → Site → Search ν ResolutionError (Bindings × List Ty)}
    (h : ∀ inForce site k m,
      unify inForce site (restoring Prod.fst k) b m = ⟨b, (find inForce site).feed k m⟩)
    (candidate : Ty) :
    unifyInstance c fuel outer v target args unify candidate (restoring Prod.fst k) b m =
      ⟨b, (TypeResolution.unifyInstance c fuel outer v target args find b candidate).feed k m⟩ := by
  refine withStructural_eq candidate fun candidate => ?_
  rcases Marker.ofDefinition? target with _ | _ | _ | _ | _ | _
  case some.valueType =>
    dsimp only
    split
    · exact congrArg (Outcome.mk b) (feed_single k _ m).symm
    · rfl
  case some.referenceType =>
    dsimp only
    split
    · exact congrArg (Outcome.mk b) (feed_single k _ m).symm
    · rfl
  all_goals
    dsimp only
    rcases checkArgCount c target args.length with e | _
    · rfl
    · dsimp only
      rcases sites c fuel candidate target (outer.nest v) args b with _ | found
      · rfl
      · refine eachSite_eq (fun site m => ?_) found
        -- behind a solution at the site, the instance is rebuilt and handed on
        rw [feed_bind, ← h]
        congr 1
        funext p m
        rw [rebuild_eq (ν := ν)]
        simp only [restoring, feed_map]

mutual
/-- A sub-constraint is unified with its argument as the search does it. -/
theorem unifyArg_eq (outer : Variance) (arg : Ty) (b : Bindings) (m : σ)
    (k : Bindings × Ty → σ → Reply ResolutionError σ) : (constraint : Constraint) →
    unifyArg c fuel outer arg constraint (restoring Prod.fst k) b m =
      ⟨b, (TypeResolution.unifyArg c fuel outer arg b constraint : Search ν _ _).feed k m⟩
  | .wildcard => congrArg (Outcome.mk b) (feed_single k (b, arg) m).symm
  | .param name v => by
    rw [unifyArg, TypeResolution.unifyArg]
    cases hb : b.get? name with
    | none =>
      -- The name is free, so the scope binds it and removes it again.
      refine whileBound_eq hb ?_
      exact congrArg (Outcome.mk _) (feed_single k (b.bind name arg, arg) m).symm
    | some bound =>
      dsimp only
      rw [compareBound_eq (ν := ν), feed_map]
  | .instanceOf target v args => by
    rw [unifyArg, TypeResolution.unifyArg]
    exact unifyInstance_eq c fuel outer v target args
      (fun inForce site k m => unifySite_eq inForce site b m k args) arg
  | .negation inner => rfl

/-- The sub-constraints are unified along the site. -/
theorem unifySite_eq (outer : Variance) (site : Site) (b : Bindings) (m : σ)
    (k : Bindings × List Ty → σ → Reply ResolutionError σ) : (constraints : List Constraint) →
    unifySite c fuel outer site constraints (restoring Prod.fst k) b m =
      ⟨b, (TypeResolution.unifySite c fuel outer site b constraints : Search ν _ _).feed k m⟩
  | [] => by
    have hnil := congrArg (Outcome.mk b) (feed_single (ν := ν) k (b, []) m).symm
    cases site <;> exact hnil
  | constraint :: rest => by
    cases site with
    | nil => exact congrArg (Outcome.mk b) (feed_single k (b, []) m).symm
    | cons arg others =>
      rw [unifySite, TypeResolution.unifySite]
      refine withStructural_eq arg fun arg => ?_
      -- What follows the first argument is the continuation that it is called with, and it restores
      -- the environment by the recursion for the rest of the site.
      rw [feed_bind, ← unifyArg_eq outer arg b m _ constraint]
      congr 1
      funext p m
      rw [restoring, feed_map]
      exact unifySite_eq outer others p.1 m _ rest
end

mutual
/-- A constraint of a slot is matched as the search does it, a negation by a probe. -/
theorem matchOne_eq (outer : Variance) (candidate : Ty) (b : Bindings) (σ : Type) (m : σ)
    (k : Bindings → σ → Reply ResolutionError σ) : (constraint : Constraint) →
    matchOne c fuel outer candidate constraint σ (restoring id k) b m =
      ⟨b, (TypeResolution.matchOne c fuel outer candidate b constraint : Search ν _ _).feed k m⟩
  | .wildcard => congrArg (Outcome.mk b) (feed_single k b m).symm
  | .param name v => by
    rw [matchOne, TypeResolution.matchOne]
    cases hb : b.get? name with
    | none =>
      refine whileBound_eq hb ?_
      exact congrArg (Outcome.mk _) (feed_single k (b.bind name candidate) m).symm
    | some bound =>
      dsimp only
      rw [feed_map]
      exact compareBound_eq (k := fun p => k p.1) c fuel (outer.nest v) candidate bound
  | .instanceOf target v args => by
    rw [matchOne, TypeResolution.matchOne, feed_map]
    exact unifyInstance_eq (k := fun p => k p.1) c fuel outer v target args
      (fun inForce site k m => unifySite_eq c fuel inForce site b m k args) candidate
  | .negation inner => by
    rw [matchOne, TypeResolution.matchOne, matchAll_eq outer candidate b Bool false probe inner,
      feed_ifNone]
    exact Outcome.unlessFound_eq (congrArg (Outcome.mk b) (feed_single k b m).symm) _

/-- The constraints of a slot are matched one inside of the other. -/
theorem matchAll_eq (outer : Variance) (candidate : Ty) (b : Bindings) (σ : Type) (m : σ)
    (k : Bindings → σ → Reply ResolutionError σ) : (constraints : List Constraint) →
    matchAll c fuel outer candidate constraints σ (restoring id k) b m =
      ⟨b, (TypeResolution.matchAll c fuel outer candidate b constraints : Search ν _ _).feed k m⟩
  | [] => congrArg (Outcome.mk b) (feed_single k b m).symm
  | constraint :: rest => by
    rw [matchAll, TypeResolution.matchAll, feed_bind,
      ← matchOne_eq outer candidate b σ m _ constraint]
    congr 1
    funext b m
    exact matchAll_eq outer candidate b σ m k rest
end

/-- **Matching in one environment is matching.** Called with a continuation that leaves the
environment as it finds it, the program leaves the environment as it found it, however it ends, and
the continuation is fed what `slotBindings` finds. -/
theorem matchSlots_eq (slots : List Slot) (candidates : List Ty) (b : Bindings) (σ : Type)
    (m : σ) (k : Bindings → σ → Reply ResolutionError σ) :
    matchSlots c fuel slots candidates σ (restoring id k) b m =
      ⟨b, (slotBindings c fuel slots candidates b : Search ν _ _).feed k m⟩ := by
  induction slots generalizing candidates b σ m with
  | nil => exact congrArg (Outcome.mk b) (feed_single k b m).symm
  | cons slot slots ih =>
    cases candidates with
    | nil => rfl
    | cons candidate rest =>
      rw [matchSlots, slotBindings, choose]
      -- Without the flag the rest of the slots is simply the continuation. With it, two bits are
      -- noted on the way, and this is how feeding a definitive choice is defined.
      cases slot.definitive with
      | false =>
        have hrest : matchSlots c fuel slots rest σ (restoring id k) =
            restoring id fun b => (slotBindings c fuel slots rest b : Search ν _ _).feed k :=
          funext fun b => funext fun m => ih rest b σ m k
        rw [if_neg Bool.false_ne_true, if_neg Bool.false_ne_true, feed_bind, hrest,
          matchAll_eq (ν := ν)]
      | true =>
        have halternative :
            (fun b (n : σ × Bool) => (matchSlots c fuel slots rest (σ × Bool)
              (noting (restoring id k)) b (n.1, false)).mapReply (afterAlternative n.2)) =
            restoring id fun b n => afterAlternative n.2
              ((slotBindings c fuel slots rest b : Search ν _ _).feed (Search.noting k)
                (n.1, false)) := by
          funext b n
          rw [show noting (restoring id k) = restoring id (Search.noting k) from rfl, ih]
          rfl
        rw [if_pos rfl, if_pos rfl, feed_bindFirst]
        dsimp only
        rw [halternative, matchAll_eq (ν := ν)]
        rfl

end

end InPlace

end TypeResolution
