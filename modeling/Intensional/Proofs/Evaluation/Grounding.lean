import Intensional.Proofs.Evaluation.Following

/-!
# Runs without cycles mean something

A run that meets no cycle and comes to an answer has a meaning, provided that all remembered
values have one (`Machine.Grounded`). Storing the answer keeps them so. What the run answers is
then what is meant, since it follows its meaning; and it cannot have failed on an unkeyed leaf.

Without caching nothing is remembered, and the meaning is defined at a height that is no larger
than the room of the run.
-/

namespace Intensional

open Machine DimTable

/-- The memo is consistent, and every remembered name means something. -/
structure Machine.Grounded (p : Program) (s : Machine) : Prop where
  consistent : p.consistent.holds s
  defined : p.config.caching = true → ∀ n k, (s.memo.known? n k).isSome = true →
    ∀ r : Reference, r.Describes p s (some n) → s.dims.NumberedBy r.number →
      ∃ h, (r.value h n k).isSome = true

variable {α β γ δ : Type} {p : Program} {L : Likeness} {room : Nat} {i : Vantage}
  {s s' : Machine}

theorem Machine.Grounded.steady (h : s.Grounded p) (htries : s'.memo.tries = s.memo.tries)
    (hdims : s.dims.Within s'.dims)
    (hreaders : ∀ m n, AskedBy s.readers m n → AskedBy s'.readers m n) : s'.Grounded p := by
  refine ⟨p.consistent.steady h.consistent htries hdims hreaders, ?_⟩
  intro hcaching n k hsome r hdesc hnum
  rw [Memo.known?_congr htries] at hsome
  exact h.defined hcaching n k hsome r (hdesc.of_readers hreaders) (hnum.of_within hdims)

/-- Without caching there is nothing to be consistent. -/
theorem Program.grounded_of_uncached (hoff : p.config.caching = false) (s : Machine) :
    s.Grounded p := by
  constructor
  all_goals
    intro hcaching
    rw [hoff] at hcaching
    cases hcaching

/-- The equations of a program, with the dimensions of a table. -/
def Program.reference (p : Program) (T : DimTable) : Reference :=
  ⟨p.vocabulary.operators, p.group?, T.number, T.number_congr⟩

theorem Program.reference_describes (p : Program) (T : DimTable) (s : Machine)
    (reader : Option String) : (p.reference T).Describes p s reader := ⟨rfl, fun _ _ => rfl⟩

/-- From some height on the meaning is defined, and always the same. Without caching this is so
at all heights that leave the room of the run. -/
def Settled (p : Program) (room : Nat) (r : Reference) (y : Meaning β) : Prop :=
  ∃ b t h, (p.config.caching = false → h ≤ room) ∧
    ∀ h', h ≤ h' → y (r.sense h') = some (b, t)

/-- Every run without a cycle keeps all remembered names meaningful, does not fail on an unkeyed
leaf, and means something if it comes to an answer. -/
def Grounds (p : Program) (room : Nat) (i : Vantage) (x : EvalM α) (y : Meaning β) : Prop :=
  ∀ s, s.Grounded p → s.reader = i.reader → (x s).2.stats.loops = s.stats.loops →
    i.reference.Describes p (x s).2 i.reader → (x s).2.dims.NumberedBy i.reference.number →
      (x s).2.Grounded p ∧ (∀ n dims, (x s).1 ≠ .error (.unkeyedLeaf n dims)) ∧
        ∀ a, (x s).1 = .ok a → Settled p room i.reference y

/-- An evaluation step that always answers and remembers nothing, where something is always
meant. -/
theorem grounds_of_total {x : EvalM α} {y : Meaning β} {b : β} {t : Trace}
    (hx : EvalM.Keeps p.consistent x) (htries : ∀ s, (x s).2.memo.tries = s.memo.tries)
    (hkey : ∀ s n dims, (x s).1 ≠ .error (.unkeyedLeaf n dims))
    (hy : ∀ h, y (i.reference.sense h) = some (b, t)) : Grounds p room i x y := by
  intro s hs _ _ _ _
  obtain ⟨hgrows, -⟩ := hx s
  refine ⟨hs.steady (htries s) hgrows.dims hgrows.readers, hkey s, fun a _ => ?_⟩
  exact ⟨b, t, 0, fun _ => Nat.zero_le _, fun h _ => hy h⟩

theorem grounds_noting {a : α} {b : β} {dims : IndexSet} :
    Grounds p room i (do EvalM.noteReads dims; pure a) (do Evaluator.note dims; pure b) :=
  grounds_of_total (EvalM.keeps_bind (EvalM.keeps_noteReads dims) fun _ => EvalM.keeps_pure a)
    (fun s => congrArg Memo.tries (s.noteReads_memo dims)) (fun s n dims h => by cases h)
    fun h => rfl

theorem Guided.everywhere {keys : List Value} {ran : Except Fault α × Machine}
    (hall : ∀ d, i.scope d) (hnum : ran.2.dims.NumberedBy i.reference.number) :
    Guided i s keys ran := ⟨.inl hnum, .inl hall⟩

theorem grounds_bind {R : α → β → Prop} {x : EvalM α} {y : Meaning β} {f : α → EvalM γ}
    {g : β → Meaning δ} (hall : ∀ d, i.scope d) (hx : EvalM.Keeps p.consistent x)
    (hf : ∀ a, EvalM.Keeps p.consistent (f a))
    (hfollows : ∀ h, Follows p L room { i with height := h } R x y) (hxy : Grounds p room i x y)
    (hfg : ∀ a b, R a b → Grounds p room i (f a) (g b)) :
    Grounds p room i (x >>= f) (y >>= g) := by
  intro s hs hreader hloops hdesc hnum
  have hfirst := hxy s hs hreader
  obtain ⟨hgrows, -⟩ := hx s
  have haccords := fun h => hfollows h s hs.consistent hreader
  rcases hres : x s with ⟨e | a, s₁⟩
  · rw [Action.bind_of_error hres] at hloops hdesc hnum ⊢
    rw [hres] at hfirst
    obtain ⟨hgrounded, hkey, -⟩ := hfirst hloops hdesc hnum
    exact ⟨hgrounded, fun n dims h => hkey n dims (by cases h; rfl), fun a h => by cases h⟩
  · rw [Action.bind_of_ok hres] at hloops hdesc hnum ⊢
    rw [hres] at hfirst hgrows haccords
    obtain ⟨hgrows', -⟩ := hf a s₁
    have hsame : s₁.stats.loops = s.stats.loops :=
      Nat.le_antisymm (hloops ▸ hgrows'.loops) hgrows.loops
    have hdesc₁ := hdesc.of_grows hgrows'
    have hnum₁ := hnum.of_within hgrows'.dims
    obtain ⟨hgrounded, -, hsettled⟩ := hfirst hsame hdesc₁ hnum₁
    obtain ⟨b, t₁, h₁, hroom₁, hy⟩ := hsettled a rfl
    have hab : R a b := by
      cases haccords h₁ hdesc₁ b t₁ (hy h₁ (Nat.le_refl _)) (.everywhere hall hnum₁) with
      | ok _ hab _ _ _ => exact hab
      | looped hless _ => omega
    obtain ⟨hgrounded', hkey', hsettled'⟩ := hfg a b hab s₁ hgrounded (hgrows.reader.trans hreader)
      (hloops.trans hsame.symm) hdesc hnum
    refine ⟨hgrounded', hkey', fun c hc => ?_⟩
    obtain ⟨d, t₂, h₂, hroom₂, hg⟩ := hsettled' c hc
    refine ⟨d, t₁ ++ t₂, max h₁ h₂, fun hoff => Nat.max_le.mpr ⟨hroom₁ hoff, hroom₂ hoff⟩, ?_⟩
    intro h hle
    obtain ⟨hle₁, hle₂⟩ := Nat.max_le.mp hle
    exact Meaning.bind_eq_some.mpr ⟨b, t₁, t₂, hy h hle₁, hg h hle₂, rfl⟩

theorem grounds_beneath {ps qs : List (Dim × Value)} {x : EvalM Value} {y : Meaning Value}
    (hx : EvalM.Keeps p.consistent x) (hxy : Grounds p room (i.beneath ps qs) x y) :
    Grounds p room i (Evaluator.beneath (.ofList ps) x) (Evaluator.beneath (.ofList qs) y) := by
  intro s hs hreader hloops hdesc hnum
  obtain ⟨hgrows, -⟩ := hx (s.push (.new none))
  have hinner := hxy (s.push (.new none)) (hs.steady rfl (.refl _) fun _ _ => id) hreader
  rcases hrun : x (s.push (.new none)) with ⟨r, c⟩
  rw [hrun] at hgrows hinner
  obtain ⟨f, fs, hframes, -⟩ := hgrows.innermost rfl
  rw [EvalM.beneath_apply hrun hframes] at hloops hdesc hnum ⊢
  rw [endingBody_stats] at hloops
  rw [endingBody_dims] at hnum
  have hdesc' : i.reference.Describes p c i.reader :=
    hdesc.of_readers (by rw [endingBody_readers]; exact fun _ _ => id)
  obtain ⟨hgrounded, hkey, hsettled⟩ := hinner hloops hdesc' hnum
  refine ⟨hgrounded.steady ?_ ?_ ?_, hkey, fun a ha => ?_⟩
  · rw [endingBody_memo]
  · rw [endingBody_dims]
    exact .refl _
  · rw [endingBody_readers]
    exact fun _ _ => id
  · obtain ⟨b, t, h, hroom, hy⟩ := hsettled a ha
    refine ⟨b, t.outside (.ofList qs), h, hroom, fun h' hle => ?_⟩
    exact Meaning.beneath_eq_some.mpr ⟨t, hy h' hle, rfl⟩

/-- Following a meaning and being grounded in it is respected by every step of an evaluation. -/
def grounding (p : Program) (L : Likeness) (room : Nat) :
    Relator (Kept p.consistent) Meaning where
  Index := Vantage
  like := L
  contexts i k l := (i.here = k ∧ i.there = l ∧ L.Agree i.scope k l) ∧ ∀ d, i.scope d
  rel i _ _ R x y := (∀ d, i.scope d) →
    (∀ h, Follows p L room { i with height := h } R x.val y) ∧ Grounds p room i x.val y
  pure {i _ _ _ a b} hab _ := by
    refine ⟨fun h => follows_pure hab, ?_⟩
    exact grounds_of_total (EvalM.keeps_pure a) (fun _ => rfl) (fun s n dims h => by cases h)
      fun h => rfl
  bind {_ _ _ _ _ _ _ x _ f _} hxy hfg hall := by
    obtain ⟨hfollows, hgrounds⟩ := hxy hall
    refine ⟨fun h => ?_, ?_⟩
    · exact follows_bind x.property (fun a => (f a).property) (hfollows h)
        fun a b hab => (hfg a b hab hall).1 h
    · exact grounds_bind hall x.property (fun a => (f a).property) hfollows hgrounds
        fun a b hab => (hfg a b hab hall).2
  look d hkl _ := ⟨fun h => (following p L room).look d hkl.1, grounds_noting⟩
  consult c hkl _ := ⟨fun h => (following p L room).consult c hkl.1, grounds_noting⟩
  test g hkl _ := ⟨fun h => (following p L room).test g hkl.1, grounds_noting⟩
  intern {i v w} hvw _ := by
    refine ⟨fun h => (following p L room).intern hvw, ?_⟩
    refine grounds_of_total (EvalM.keeps_internValue v) (fun _ => rfl) (fun s n dims he => ?_)
      fun h => rfl
    obtain ⟨size, hsize⟩ := internValue_error (Prod.ext he rfl : internValue v s.dims = (_, _))
    cases hsize
  beneath {i k l ps qs} hkl hpq := by
    obtain ⟨⟨rfl, rfl, hagree⟩, hall⟩ := hkl
    refine ⟨i.beneath ps qs, ⟨⟨rfl, rfl, hagree.override hpq⟩, fun d => .inl (hall d)⟩, ?_⟩
    intro x y hxy _
    obtain ⟨hfollows, hgrounds⟩ := hxy fun d => .inl (hall d)
    exact ⟨fun h => follows_beneath hpq x.property (hfollows h),
      grounds_beneath x.property hgrounds⟩

namespace Program

variable {n : String} {g : Group} {k : Context} {depth : Nat} {c : Machine} {f : Frame}
  {fs : List Frame} {res : Except Fault Value} {ran : Except Fault Value × Machine}

/-- A run for a name without a cycle keeps all remembered names meaningful, does not fail on an
unkeyed leaf, and means something if it comes to an answer. -/
def RunGrounds (p : Program) (room : Nat) (n : String) (k : Context)
    (ran : Except Fault Value × Machine) : Prop :=
  ran.2.Grounded p ∧ (∀ m dims, ran.1 ≠ .error (.unkeyedLeaf m dims)) ∧
    ∀ v, ran.1 = .ok v → ∀ r : Reference, r.Describes p ran.2 (some n) →
      ran.2.dims.NumberedBy r.number →
        ∃ h, (p.config.caching = false → h ≤ room) ∧ (r.value h n k).isSome = true

/-- Every evaluation of a name with some room that meets no cycle is grounded. -/
def NamesGround (p : Program) (room : Nat) : Prop :=
  ∀ (n : String) (k : Context) (s : Machine), s.Grounded p →
    (p.demand room n k s).2.stats.loops = s.stats.loops →
      RunGrounds p room n k (p.demand room n k s)

theorem NamesGround.call_grounds (h : NamesGround p room)
    (hops : L.Keeps p.vocabulary.operators) {n : String} (hagree : L.Agree i.scope k i.there)
    (hall : ∀ d, i.scope d) :
    Grounds p room i (p.demand room n k) (Meaning.call n i.there) := by
  intro s hs hreader hloops hdesc hnum
  obtain ⟨hgrounded, hkey, hmeans⟩ := h n k s hs hloops
  refine ⟨hgrounded, hkey, fun v hv => ?_⟩
  have hleads : ∀ q ∈ i.reader, (p.demand room n k s).2.Leads n q := fun q hq =>
    (p.names_grow room n k s).leads (leads_asking (hreader.trans hq) n)
  obtain ⟨height, hroom, hsome⟩ := hmeans v hv i.reference (hdesc.of_leads hleads) hnum
  obtain ⟨⟨w, u⟩, hw⟩ := Option.isSome_iff_exists.mp hsome
  obtain ⟨w', u', hw', -⟩ := Reference.value_depends (hdesc.operators ▸ hops) (Nat.le_refl _) hw
    (hagree.mono fun d _ => hall d)
  exact ⟨w', u', height, hroom, fun h' hle => Reference.value_mono hle hw'⟩

section Bodies

variable (h : NamesGround p room) (hops : L.Keeps p.vocabulary.operators)
  (hfollow : NamesFollow p L room)

include h hops hfollow

theorem NamesGround.call_rel (i : Vantage) (n : String) (k l : Context)
    (hkl : (grounding p L room).contexts i k l) :
    (grounding p L room).rel i L.same (hfollow.call n k) (Meaning.call n l) := by
  obtain ⟨⟨hhere, rfl, hagree⟩, hall⟩ := hkl
  intro _
  exact ⟨fun height => hfollow.call_follows (i := { i with height := height }) hhere hagree,
    h.call_grounds hops hagree hall⟩

theorem NamesGround.body_grounds (g : Group) (reader : Option String) {r : Reference}
    (hr : r.operators = p.vocabulary.operators) :
    Grounds p room ⟨r, 0, fun _ => True, k, k, reader⟩
      (g.value (Code.eval p.vocabulary.operators (p.demand room)) k) (r.body g k) := by
  rw [Reference.body, hr, ← hfollow.body_val g k]
  exact ((grounding p L room).group hops (h.call_rel hops hfollow) g
    (i := ⟨r, 0, fun _ => True, k, k, reader⟩) ⟨⟨rfl, rfl, .refl _ k⟩, fun _ => trivial⟩
    fun _ => trivial).2

theorem NamesGround.code_grounds (c : Code) (reader : Option String) {r : Reference} :
    Grounds p room ⟨r, 0, fun _ => True, k, k, reader⟩
      (c.eval p.vocabulary.operators (p.demand room) k)
      (c.interpret p.vocabulary.operators Meaning.call k) := by
  rw [← hfollow.code_val c k]
  exact ((grounding p L room).code hops (h.call_rel hops hfollow) c
    (i := ⟨r, 0, fun _ => True, k, k, reader⟩) ⟨⟨rfl, rfl, .refl _ k⟩, fun _ => trivial⟩
    fun _ => trivial).2

end Bodies

section Evaluated

variable (hops : L.Keeps p.vocabulary.operators) (hL : p.config.caching = true → L = .equality)
  (h : Evaluates p L room n g k s res c f fs) (hsame : c.stats.loops = s.stats.loops)

include h

/-- A name means something if its equations do. -/
theorem Evaluates.means {r : Reference} (hdesc : r.Describes p c (some n))
    (hsettled : Settled p room r (r.body g k)) :
    ∃ h, (p.config.caching = false → h ≤ room + 1) ∧ (r.value h n k).isSome = true := by
  obtain ⟨b, t, height, hroom, hb⟩ := hsettled
  refine ⟨height + 1, fun hoff => ?_, ?_⟩
  · have := hroom hoff
    omega
  rw [Reference.value_succ (hdesc.group.trans h.group), hb height (Nat.le_refl _)]
  rfl

include hops hL hsame

/-- Compared with a meaning of the name at the same context, the equations accord. -/
theorem Evaluates.settles_here {r : Reference} {height : Nat} {w : Value} {u : Trace}
    (hdesc : r.Describes p c (some n)) (hnum : c.dims.NumberedBy r.number)
    (hw : r.value height n k = some (w, u)) :
    ∃ height', height = height' + 1 ∧ Accord p L room
      ⟨r, height', fun _ => True, k, k, some n⟩ L.same (s.enter n k) w u (res, c) := by
  have hguided : Guided ⟨r, height, fun _ => True, k, k, some n⟩ (s.enter n k) u.keys (res, c) :=
    .everywhere (fun _ => trivial) hnum
  rcases h.settles hops hL rfl (.refl _ k) hdesc hw hguided with
    ⟨height', hheight, -, haccord⟩ | ⟨hless, -⟩
  · exact ⟨height', hheight, haccord⟩
  · omega

/-- The value that is stored is meant at every context that leads to it. -/
theorem Evaluates.means_stored {r : Reference} {height : Nat} {w : Value} {u : Trace}
    (hdesc : r.Describes p c (some n)) (hnum : c.dims.NumberedBy r.number)
    (hw : r.value height n k = some (w, u)) {l : Context} {path : List Dim}
    (hpath : L.Agree (· ∈ path) k l) (hstored : ∀ d ∈ f.reads, d ∈ path) {v : Value}
    (hv : res = .ok v) : (r.value height n l).isSome = true := by
  obtain ⟨height', rfl, haccord⟩ := h.settles_here hops hL hsame hdesc hnum hw
  subst hv
  cases haccord with
  | looped hless => exact absurd hsame (Nat.ne_of_gt hless)
  | ok _ _ hheeds _ _ =>
    have hagree : L.Agree (· ∈ u.reads) k l :=
      hpath.mono fun d hd => hstored d ((hheeds f fs h.frames).1 d hd)
    obtain ⟨w', u', hw', -⟩ := Reference.value_depends (hdesc.operators ▸ hops)
      (Nat.le_refl _) hw hagree
    exact Option.isSome_iff_exists.mpr ⟨_, hw'⟩

/-- No leaf is in the way of the value that is to be stored. -/
theorem Evaluates.stores {v : Value} (hres : res = .ok v) (hc : c.Grounded p)
    (hcaching : p.config.caching = true) (hmiss : s.memo.known? n k = none) :
    c.memo.known? n k = none := by
  subst hres
  by_contra hleaf
  have hdesc := p.reference_describes c.dims c (some n)
  obtain ⟨height, hsome⟩ := hc.defined hcaching n k (Option.isSome_iff_ne_none.mpr hleaf)
    (p.reference c.dims) hdesc c.dims.numberedBy_number
  obtain ⟨⟨w, u⟩, hw⟩ := Option.isSome_iff_exists.mp hsome
  exact hleaf (h.no_leaf hops hL hmiss hsame
    (i := ⟨p.reference c.dims, height, fun _ => True, k, k, some n⟩) rfl hdesc rfl hw
    (.everywhere (fun _ => trivial) c.dims.numberedBy_number))

end Evaluated

theorem Evaluates.grounds (hops : L.Keeps p.vocabulary.operators)
    (hL : p.config.caching = true → L = .equality) (h : Evaluates p L room n g k s res c f fs)
    (hconcludes : Concludes p n k depth c f fs res ran)
    (hmiss : p.config.caching = true → s.memo.known? n k = none)
    (hloops : ran.2.stats.loops = s.stats.loops) (hran : p.consistent.holds ran.2)
    (hbody : ∀ r : Reference, r.Describes p c (some n) → c.dims.NumberedBy r.number →
      c.Grounded p ∧ (∀ m dims, res ≠ .error (.unkeyedLeaf m dims)) ∧
        ∀ v, res = .ok v → Settled p room r (r.body g k)) :
    RunGrounds p (room + 1) n k ran := by
  obtain ⟨hdims, hreaders, hcounted⟩ := hconcludes.settled
  have hsame : c.stats.loops = s.stats.loops := hcounted.symm.trans hloops
  obtain ⟨hc, hkey, -⟩ := hbody (p.reference c.dims) (p.reference_describes c.dims c (some n))
    c.dims.numberedBy_number
  have hmeans : ∀ v, res = .ok v → ∀ r : Reference, r.Describes p c (some n) →
      c.dims.NumberedBy r.number →
        ∃ h, (p.config.caching = false → h ≤ room + 1) ∧ (r.value h n k).isSome = true :=
    fun v hv r hdesc hnum => h.means hdesc ((hbody r hdesc hnum).2.2 v hv)
  have hdescribes : ∀ {r : Reference} {m : String},
      r.Describes p ran.2 (some m) → r.Describes p c (some m) :=
    fun hdesc => hdesc.of_readers (by rw [hreaders]; exact fun _ _ => id)
  refine ⟨⟨hran, fun hcaching m l hsome r hdesc hnum => ?_⟩, ?_, fun v hv r hdesc hnum => ?_⟩
  · obtain ⟨⟨v, path⟩, hv⟩ := Option.isSome_iff_exists.mp hsome
    rw [hdims] at hnum
    rcases hconcludes.recalled hv with hold | ⟨-, -, hres, -, rfl, hpath, hstored⟩
    · exact hc.defined hcaching m l (Option.isSome_iff_exists.mpr ⟨_, hold⟩) r (hdescribes hdesc)
        hnum
    · obtain rfl := hL hcaching
      obtain ⟨height, -, hsome⟩ := hmeans v hres r (hdescribes hdesc) hnum
      obtain ⟨⟨w, u⟩, hw⟩ := Option.isSome_iff_exists.mp hsome
      exact ⟨height, h.means_stored hops hL hsame (hdescribes hdesc) hnum hw hpath hstored hres⟩
  · intro m dims he
    cases hconcludes with
    | failed e => exact hkey m dims he
    | passed => cases he
    | stored => cases he
    | refused v e hcaching hstore =>
      have hleaf : (c.memo.known? n k).isSome = true := (Memo.store_error hstore).2
      rw [h.stores hops hL hsame rfl hc hcaching (hmiss hcaching)] at hleaf
      cases hleaf
  · rw [hdims] at hnum
    exact hmeans v (hconcludes.answered hv).1 r (hdescribes hdesc) hnum

/-- A name that is asked for is grounded, if it is where it is evaluated. -/
theorem ask_grounds {evaluate : Group → EvalM Value}
    (hevaluate : ∀ g s, p.group? n = some g → s.memo.isPending n k = false →
      (p.config.caching = true → s.memo.known? n k = none) → s.Grounded p →
        (evaluate g s).2.stats.loops = s.stats.loops → RunGrounds p room n k (evaluate g s))
    (s : Machine) (hs : s.Grounded p)
    (hloops : (p.ask n k evaluate s).2.stats.loops = s.stats.loops) :
    RunGrounds p room n k (p.ask n k evaluate s) := by
  have hasking := s.grows_asking n
  have hgrounded : ∀ s', s'.memo = s.memo → s.Grows s' → s'.Grounded p := fun s' hmemo hgrows =>
    hs.steady (congrArg Memo.tries hmemo) hgrows.dims hgrows.readers
  rcases p.ask_cases n k evaluate s with ⟨hg, hask⟩ | ⟨g, hg, ⟨v, path, hcaching, hv, hask⟩ |
    ⟨hpending, hask⟩ | ⟨hpending, hmiss, hask⟩⟩ <;> rw [hask] at hloops ⊢
  · refine ⟨hgrounded _ (s.asking_memo n) hasking, fun m dims h => (nomatch h), ?_⟩
    intro v _ r hdesc _
    refine ⟨0, fun _ => Nat.zero_le _, ?_⟩
    rw [Reference.value_of_none (hdesc.group.trans hg)]
    rfl
  · have hhit : (s.asking n).Grows (s.asking n).countHit := .of_stats (Nat.le_refl _)
    have hgrows := (hasking.trans hhit).trans (grows_noteReads _ (.ofList path))
    refine ⟨hgrounded _ ?_ hgrows, fun m dims h => (nomatch h), fun w _ r hdesc hnum => ?_⟩
    · rw [noteReads_memo]
      exact s.asking_memo n
    · obtain ⟨h, hsome⟩ := hs.defined hcaching n k (Option.isSome_iff_exists.mpr ⟨_, hv⟩) r
        (hdesc.of_grows hgrows) (hnum.of_within hgrows.dims)
      refine ⟨h, fun hoff => ?_, hsome⟩
      rw [hcaching] at hoff
      cases hoff
  · have hless : s.stats.loops < ((s.asking n).looping n k).stats.loops := by
      rw [← s.asking_loops n]
      exact Nat.lt_succ_self _
    rw [noteReads_stats] at hloops
    omega
  · have hmemo : (s.asking n).countMiss.memo = s.memo := s.asking_memo n
    have hmissing : (s.asking n).Grows (s.asking n).countMiss := .of_stats (Nat.le_refl _)
    refine hevaluate g (s.asking n).countMiss hg (hmemo ▸ hpending) (hmemo ▸ hmiss)
      (hgrounded _ hmemo (hasking.trans hmissing)) (hloops.trans ?_)
    exact (s.asking_loops n).symm

/-- Every evaluation of a name that meets no cycle is grounded. -/
theorem names_ground (hops : L.Keeps p.vocabulary.operators)
    (hL : p.config.caching = true → L = .equality) : ∀ room : Nat, NamesGround p room
  | 0, n, k, s, hs, hloops => by
      refine ask_grounds (fun g s _ _ _ hs _ => ⟨hs, fun m dims h => ?_, fun v h => ?_⟩) s hs hloops
      · cases h
      · cases h
  | room + 1, n, k, s, hs, hloops => by
      have ih := names_ground hops hL room
      have hfollow := names_follow hops hL room
      refine ask_grounds (fun g s hg hpending hmiss hs hloops => ?_) s hs hloops
      have hkeeps := hfollow.keeps_body g k
      have hfollows := fun (i : Vantage) (hhere : i.here = k)
        (hagree : L.Agree i.scope k i.there) => hfollow.body_follows hops g hhere hagree
      have hgrounds := fun (r : Reference) (hr : r.operators = p.vocabulary.operators) =>
        ih.body_grounds (k := k) hops hfollow g (some n) hr
      generalize g.value (Code.eval p.vocabulary.operators (p.demand room)) k = body
        at hkeeps hfollows hgrounds hloops ⊢
      obtain ⟨hgrows, hholds⟩ := hkeeps (s.enter n k)
      rcases hrun : body (s.enter n k) with ⟨res, c⟩
      rw [hrun] at hgrows hholds
      obtain ⟨f, fs, hframes, -⟩ := hgrows.innermost rfl
      have hconcludes := compute_concludes (p := p) hrun hframes
      have heval := evaluates_of_follows hg hs.consistent hgrows hframes hrun hfollows
      have henter : (s.enter n k).Grounded p := hs.steady rfl (.refl _) fun _ _ => id
      have hran := heval.consistent hops hL hconcludes (hholds henter.consistent)
      obtain ⟨-, -, hcounted⟩ := hconcludes.settled
      refine heval.grounds hops hL hconcludes hmiss hloops hran fun r hdesc hnum => ?_
      have h := hgrounds r hdesc.operators (s.enter n k) henter rfl
      rw [hrun] at h
      exact h (hcounted.symm.trans hloops) hdesc hnum

end Program

end Intensional
