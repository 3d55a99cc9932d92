import Intensional.Proofs.Evaluation.Grounding

/-!
# Which operators a meaning depends on

The meaning of a name depends on the operators through the applications in the equations that it
was found by, and on nothing else. So under other operators that answer the same for these
applications it is the same meaning (`Reference.value_transfer`).

For a remembered value that is enough, although the equations of many other names may have other
meanings then: what leads to its name is all that it came from. A reference in which every other
name goes round in a circle still has a meaning for it (`Reference.cut`), and that one is carried
over (`Machine.Grounded.reoperate`).
-/

namespace Intensional

/-! ## Applications -/

namespace Code

mutual

/-- The code applies the operator to operands of that number somewhere. -/
def applies (op : String) (arity : Nat) : Code → Bool
  | .const _ | .read _ | .ident _ | .source _ => false
  | .readAt key => applies op arity key
  | .apply name args => (name == op && args.length == arity) || anyApplies op arity args
  | .cond test yes no => applies op arity test || applies op arity yes || applies op arity no
  | .under body bindings => applies op arity body || anyBindingApplies op arity bindings

def anyApplies (op : String) (arity : Nat) : List Code → Bool
  | [] => false
  | c :: cs => applies op arity c || anyApplies op arity cs

def anyBindingApplies (op : String) (arity : Nat) : List (Code × Code) → Bool
  | [] => false
  | (key, value) :: rest =>
    applies op arity key || applies op arity value || anyBindingApplies op arity rest

end

end Code

def Definition.applies (op : String) (arity : Nat) (d : Definition) : Bool :=
  d.condition.any (·.applies op arity) || d.body.applies op arity

namespace OperatorTable

/-- The tables answer the same for every application of which `uses` is true. -/
def SameOn (uses : String → Nat → Bool) (t t' : OperatorTable) : Prop :=
  ∀ op arity, uses op arity = true → ∀ vs : List Value, vs.length = arity →
    t.apply op vs = t'.apply op vs

variable {uses uses' : String → Nat → Bool} {t t' : OperatorTable}

theorem SameOn.mono (h : SameOn uses t t')
    (hsub : ∀ op arity, uses' op arity = true → uses op arity = true) : SameOn uses' t t' :=
  fun op arity huses => h op arity (hsub op arity huses)

end OperatorTable

/-! ## Code under other operators -/

section

variable {α β : Type} {t t' : OperatorTable} {e : Sense}

/-- Two computations are the same in a sense if their first parts are, and what follows is, for
all answers of these. -/
theorem Meaning.bind_congr {x y : Meaning α} {f g : α → Meaning β} (hxy : x e = y e)
    (hfg : ∀ a u, y e = some (a, u) → f a e = g a e) : (x >>= f) e = (y >>= g) e := by
  show (x e).bind _ = (y e).bind _
  rw [hxy]
  cases hy : y e with
  | none => rfl
  | some p => simp only [Option.bind_some, hfg p.1 p.2 hy]

namespace Code

theorem length_interpretAll {call : String → Context → Meaning Value} {k : Context} :
    ∀ {cs : List Code} {vs : List Value} {u : Trace},
      interpretAll t call cs k e = some (vs, u) → vs.length = cs.length
  | [], _, _, h => by
    rw [interpretAll] at h
    obtain ⟨rfl, -⟩ := Meaning.pure_eq_some.mp h
    rfl
  | c :: cs, _, _, h => by
    rw [interpretAll] at h
    obtain ⟨v, _, _, -, h, -⟩ := Meaning.bind_eq_some.mp h
    obtain ⟨vs, _, _, hvs, h, -⟩ := Meaning.bind_eq_some.mp h
    obtain ⟨rfl, -⟩ := Meaning.pure_eq_some.mp h
    rw [List.length_cons, List.length_cons, length_interpretAll hvs]

mutual

theorem interpret_same : ∀ (c : Code) (k : Context), OperatorTable.SameOn c.applies t t' →
    c.interpret t Meaning.call k e = c.interpret t' Meaning.call k e
  | .const _, _, _ | .read _, _, _ | .ident _, _, _ | .source _, _, _ => by
    simp only [interpret]
  | .readAt key, k, h => by
    simp only [interpret]
    exact Meaning.bind_congr (interpret_same key k h) fun _ _ _ => rfl
  | .apply op args, k, h => by
    simp only [interpret]
    have hargs := interpretAll_same args k (h.mono fun _ _ hop => by simp [applies, hop])
    refine Meaning.bind_congr hargs fun vs u hvs => ?_
    rw [h op args.length (by simp [applies]) vs (length_interpretAll hvs)]
  | .cond test yes no, k, h => by
    simp only [interpret]
    have htest := interpret_same test k (h.mono fun _ _ hop => by simp [applies, hop])
    have hyes := interpret_same yes k (h.mono fun _ _ hop => by simp [applies, hop])
    have hno := interpret_same no k (h.mono fun _ _ hop => by simp [applies, hop])
    refine Meaning.bind_congr htest fun v _ _ => ?_
    split
    · exact hyes
    · exact hno
    · rfl
    · rfl
  | .under body bindings, k, h => by
    simp only [interpret]
    have hbindings := interpretBindings_same bindings k
      (h.mono fun _ _ hop => by simp [applies, hop])
    have hbody := fun l => interpret_same body l (h.mono fun _ _ hop => by simp [applies, hop])
    refine Meaning.bind_congr hbindings fun o _ _ => ?_
    cases o with
    | error v => rfl
    | ok pairs => exact congrArg (Option.map _) (hbody _)

theorem interpretAll_same : ∀ (cs : List Code) (k : Context),
    OperatorTable.SameOn (anyApplies · · cs) t t' →
      interpretAll t Meaning.call cs k e = interpretAll t' Meaning.call cs k e
  | [], _, _ => by simp only [interpretAll]
  | c :: cs, k, h => by
    simp only [interpretAll]
    have hfirst := interpret_same c k (h.mono fun _ _ hop => by simp [anyApplies, hop])
    have hrest := interpretAll_same cs k (h.mono fun _ _ hop => by simp [anyApplies, hop])
    exact Meaning.bind_congr hfirst fun _ _ _ => Meaning.bind_congr hrest fun _ _ _ => rfl

theorem interpretBindings_same : ∀ (bs : List (Code × Code)) (k : Context),
    OperatorTable.SameOn (anyBindingApplies · · bs) t t' →
      interpretBindings t Meaning.call bs k e = interpretBindings t' Meaning.call bs k e
  | [], _, _ => by simp only [interpretBindings]
  | (key, value) :: rest, k, h => by
    simp only [interpretBindings]
    have hkey := interpret_same key k (h.mono fun _ _ hop => by simp [anyBindingApplies, hop])
    have hvalue := interpret_same value k (h.mono fun _ _ hop => by simp [anyBindingApplies, hop])
    have hrest := interpretBindings_same rest k
      (h.mono fun _ _ hop => by simp [anyBindingApplies, hop])
    refine Meaning.bind_congr hkey fun v _ _ => ?_
    split
    · rfl
    · refine Meaning.bind_congr rfl fun d _ _ => Meaning.bind_congr hvalue fun w _ _ => ?_
      exact Meaning.bind_congr hrest fun _ _ _ => rfl

end

end Code

/-! ## Equations under other operators -/

theorem mem_of_interpretApplicable {eval : Code → Context → Meaning Value} {k : Context} :
    ∀ {es tried : List Equation} {u : Trace}, interpretApplicable eval k es e = some (tried, u) →
      ∀ q ∈ tried, q ∈ es
  | [], _, _, h => by
    obtain ⟨rfl, -⟩ := Meaning.pure_eq_some.mp h
    exact nofun
  | q :: es, _, _, h => by
    obtain ⟨applies, _, _, -, h, -⟩ := Meaning.bind_eq_some.mp h
    obtain ⟨rest, _, _, hrest, h, -⟩ := Meaning.bind_eq_some.mp h
    obtain ⟨rfl, -⟩ := Meaning.pure_eq_some.mp h
    have ih := mem_of_interpretApplicable hrest
    intro q' hq'
    split at hq'
    · rcases List.mem_cons.mp hq' with rfl | hq'
      · exact List.mem_cons_self ..
      · exact List.mem_cons_of_mem _ (ih q' hq')
    · exact List.mem_cons_of_mem _ (ih q' hq')

theorem Equation.interpret_same {q : Equation} (k : Context)
    (h : OperatorTable.SameOn (q.definition.applies · ·) t t') :
    q.interpret (Code.interpret t Meaning.call) k e =
      q.interpret (Code.interpret t' Meaning.call) k e := by
  refine Meaning.bind_congr rfl fun holds _ _ => ?_
  cases holds with
  | false => rfl
  | true =>
    cases hcondition : q.definition.condition with
    | none => rfl
    | some condition =>
      refine Meaning.bind_congr (Code.interpret_same condition k (h.mono fun _ _ hop => ?_))
        fun _ _ _ => rfl
      simp [Definition.applies, hcondition, hop]

theorem interpretApplicable_same (k : Context) : ∀ {es : List Equation},
    (∀ q ∈ es, OperatorTable.SameOn (q.definition.applies · ·) t t') →
      interpretApplicable (Code.interpret t Meaning.call) k es e =
        interpretApplicable (Code.interpret t' Meaning.call) k es e
  | [], _ => rfl
  | q :: es, h => by
    obtain ⟨hq, hes⟩ := List.forall_mem_cons.mp h
    exact Meaning.bind_congr (q.interpret_same k hq) fun _ _ _ =>
      Meaning.bind_congr (interpretApplicable_same k hes) fun _ _ _ => rfl

theorem Group.interpret_same {g : Group} (k : Context)
    (h : ∀ q ∈ g.equations, OperatorTable.SameOn (q.definition.applies · ·) t t') :
    g.interpret (Code.interpret t Meaning.call) k e =
      g.interpret (Code.interpret t' Meaning.call) k e := by
  refine Meaning.bind_congr (interpretApplicable_same k h) fun tried _ htried => ?_
  cases honly : Choice.among tried with
  | only q =>
    have hq := mem_of_interpretApplicable htried q (Choice.mem_of_only honly)
    exact Code.interpret_same _ k ((h q hq).mono fun _ _ hop => by simp [Definition.applies, hop])
  | nothing => rfl
  | tied ids => rfl

end

/-! ## Names under other operators -/

namespace Reference

variable {r r' : Reference} {near : String → Prop}

/-- The meanings of names are carried over to other operators and equations, where these are the
same for some names, up to applications that are answered the same, and the others have no
meaning. -/
theorem value_transfer (hnumber : r.number = r'.number)
    (hgroups : ∀ m, near m → r.group? m = r'.group? m)
    (hsame : ∀ m g, near m → r.group? m = some g → ∀ q ∈ g.equations,
      OperatorTable.SameOn (q.definition.applies · ·) r.operators r'.operators)
    (hfar : ∀ m, ¬ near m → ∀ h k, r.value h m k = none) :
    ∀ {h : Nat} {m : String} {k : Context} {v : Value} {t : Trace},
      r.value h m k = some (v, t) → r'.value h m k = some (v, t) := by
  intro h
  induction h with
  | zero =>
    intro m k v t hv
    have hm : near m := by
      by_contra hm
      cases (hfar m hm 0 k).symm.trans hv
    cases hg : r.group? m with
    | none =>
      rw [value_of_none hg] at hv
      rwa [value_of_none ((hgroups m hm).symm.trans hg)]
    | some g => cases (value_zero hg k).symm.trans hv
  | succ h ih =>
    intro m k v t hv
    have hm : near m := by
      by_contra hm
      cases (hfar m hm (h + 1) k).symm.trans hv
    cases hg : r.group? m with
    | none =>
      rw [value_of_none hg] at hv
      rwa [value_of_none ((hgroups m hm).symm.trans hg)]
    | some g =>
      rw [value_succ hg, body, Group.interpret_same k (hsame m g hm hg)] at hv
      rw [value_succ ((hgroups m hm).symm.trans hg)]
      let T := Meaning.carrier .identity (r.sense h) (r'.sense h) fun v w hvw => by
        obtain rfl : v = w := hvw
        exact congrFun hnumber v
      have hcall : ∀ (A : Dim → Prop) (n : String) (k l : Context),
          Likeness.identity.Agree A k l →
            T.rel A Likeness.identity.same (Meaning.call n k) (Meaning.call n l) := by
        intro A n k l hkl v t hv hA
        obtain ⟨w, u, hw, hvw, hreads, hkeys⟩ := value_depends
          (Likeness.keeps_identity r.operators) (Nat.le_refl h) hv (hkl.mono hA)
        exact ⟨w, u, ih hw, hvw, hreads, hkeys⟩
      obtain ⟨w, u, hw, rfl, hreads, hkeys⟩ :=
        T.group (Likeness.keeps_identity r'.operators) hcall g (.refl _ k) v t hv fun d hd => hd
      rwa [Trace.eq_of_identity hreads hkeys] at hw

end Reference

/-! ## Remembered values under other operators -/

/-- The equation makes the name go round in a circle. -/
def Group.circling (m : String) : Group := ⟨m, [⟨⟨0⟩, .always (.ident m), 0, 0⟩], 1⟩

theorem Reference.value_circling {r : Reference} {m : String}
    (hg : r.group? m = some (.circling m)) (k : Context) : ∀ h : Nat, r.value h m k = none
  | 0 => value_zero hg k
  | h + 1 => by
    have ih := value_circling hg k h
    rw [value_succ hg]
    show (r.value h m k).map _ = none
    rw [ih]
    rfl

/-- A reference can be cut down to some names: all others go round in circles. -/
theorem Reference.exists_cut (r : Reference) (t : OperatorTable) (near : String → Prop) :
    ∃ r' : Reference, r'.operators = t ∧ r'.number = r.number ∧
      (∀ m, near m → r'.group? m = r.group? m) ∧ ∀ m, ¬ near m → ∀ h k, r'.value h m k = none := by
  classical
  refine ⟨⟨t, fun m => if near m then r.group? m else some (.circling m), r.number,
    r.number_congr⟩, rfl, rfl, fun m hm => if_pos hm, fun m hm h k => ?_⟩
  exact value_circling (if_neg hm) k h

/-- What is remembered means the same under other operators if these answer the same for every
application in an equation that it may have come from. Its meaning under the old operators is
found by what leads to its name only. -/
theorem Machine.Grounded.reoperate {p p' : Program} {s : Machine} (hs : s.Grounded p)
    (hconfig : p'.config = p.config) (hgroups : ∀ m, p'.group? m = p.group? m)
    (hsame : ∀ n k m g, (s.memo.known? n k).isSome = true → s.Leads m n → p.group? m = some g →
      ∀ q ∈ g.equations, OperatorTable.SameOn (q.definition.applies · ·) p.vocabulary.operators
        p'.vocabulary.operators) : s.Grounded p' := by
  have hmeans : p.config.caching = true → ∀ n k, (s.memo.known? n k).isSome = true →
      ∀ r' : Reference, r'.Describes p' s (some n) → s.dims.NumberedBy r'.number →
        ∃ (r : Reference) (h : Nat) (v : Value) (t : Trace), r.Describes p s (some n) ∧
          s.dims.NumberedBy r.number ∧ r.value h n k = some (v, t) ∧
            r'.value h n k = some (v, t) := by
    intro hcaching n k hknown r' hdesc' hnum'
    obtain ⟨r, hops, hnumber, hnear, hfar⟩ := r'.exists_cut p.vocabulary.operators (s.Leads · n)
    have hdesc : r.Describes p s (some n) := ⟨hops, fun m hm => by
      rw [hnear m (hm n rfl), hdesc'.groups m hm, hgroups]⟩
    have hnum : s.dims.NumberedBy r.number := hnumber ▸ hnum'
    obtain ⟨h, hsome⟩ := hs.defined hcaching n k hknown r hdesc hnum
    obtain ⟨⟨v, t⟩, hv⟩ := Option.isSome_iff_exists.mp hsome
    refine ⟨r, h, v, t, hdesc, hnum, hv, Reference.value_transfer hnumber hnear ?_ hfar hv⟩
    intro m g hm hg
    rw [hops, hdesc'.operators]
    refine hsame n k m g hknown hm ((hdesc.groups m fun q hq => ?_).symm.trans hg)
    cases hq
    exact hm
  constructor
  · intro hcaching n k v path hv r' hdesc' hnum' h' w t hw
    rw [hconfig] at hcaching
    obtain ⟨r, h, u, t', hdesc, hnum, hu, hu'⟩ :=
      hmeans hcaching n k (Option.isSome_iff_exists.mpr ⟨_, hv⟩) r' hdesc' hnum'
    obtain ⟨rfl, rfl⟩ := Reference.value_unique hw hu'
    exact hs.consistent hcaching n k v path hv r hdesc hnum h w t hu
  · intro hcaching n k hknown r' hdesc' hnum'
    obtain ⟨r, h, u, t', -, -, -, hu'⟩ := hmeans (hconfig ▸ hcaching) n k hknown r' hdesc' hnum'
    exact ⟨h, Option.isSome_iff_exists.mpr ⟨_, hu'⟩⟩

end Intensional
