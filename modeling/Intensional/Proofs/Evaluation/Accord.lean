import Intensional.Proofs.Evaluation.Keeping
import Intensional.Proofs.Evaluation.Meaning

/-!
# Runs of the machine against meanings

A run of the machine at one context is compared with what the same code means at another one.
All that is asked of the two contexts is that they agree on the dimensions that the run reads
(`Vantage.scope`). The run accords with the meaning (`Accord`) in one of three ways. It answers
the like value, reads at least what the meaning reads, and interns like values in the same
order. Or it fails for want of room or of numbers. Or it has met a cycle, and then the cycle
gets out: it leads to an evaluation that was pending before, and every frame on the way is
provisional.

Nothing is said of runs where the meaning is undefined. This is what makes the comparison go
through on cyclic programs.
-/

namespace Intensional

open Machine DimTable

/-! ## What a memo may remember -/

/-- The reference has the operators of the program, and its equations for all names whose value
may have gone into that of the name under evaluation, or for all names if there is none. -/
structure Reference.Describes (r : Reference) (p : Program) (s : Machine)
    (reader : Option String) : Prop where
  operators : r.operators = p.vocabulary.operators
  groups (m : String) : (∀ q ∈ reader, s.Leads m q) → r.group? m = p.group? m

namespace Reference.Describes

variable {r : Reference} {p : Program} {s s' : Machine} {n : String} {reader : Option String}

theorem of_readers (h : r.Describes p s' reader)
    (hreaders : ∀ m n, AskedBy s.readers m n → AskedBy s'.readers m n) :
    r.Describes p s reader :=
  ⟨h.operators, fun m hm => h.groups m fun q hq =>
    Relation.ReflTransGen.mono hreaders _ _ (hm q hq)⟩

theorem of_grows (h : r.Describes p s' reader) (hs : s.Grows s') : r.Describes p s reader :=
  h.of_readers hs.readers

theorem of_leads (h : r.Describes p s reader) (hn : ∀ q ∈ reader, s.Leads n q) :
    r.Describes p s (some n) :=
  ⟨h.operators, fun m hm => h.groups m fun q hq => (hm n rfl).trans (hn q hq)⟩

theorem group (h : r.Describes p s (some n)) : r.group? n = p.group? n :=
  h.groups n fun q hq => by cases hq; exact .refl

end Reference.Describes

/-- Wherever a remembered name means something, the remembered value is equal to what it means,
it was found over at least the dimensions that the meaning reads, and all that the meaning
interns is known. -/
def Program.consistent (p : Program) : Machine.Invariant where
  holds s := p.config.caching = true →
    ∀ n k v path, s.memo.known? n k = some (v, path) →
      ∀ r : Reference, r.Describes p s (some n) → s.dims.NumberedBy r.number →
        ∀ h w t, r.value h n k = some (w, t) →
          (w == v) = true ∧ (∀ d ∈ t.reads, d ∈ path) ∧ ∀ x ∈ t.keys, s.dims.Knows x
  steady {s s'} hs htries hdims hreaders hcaching n k v path hv r hr hnum h w t hw := by
    rw [Memo.known?_congr htries] at hv
    obtain ⟨hwv, hreads, hkeys⟩ :=
      hs hcaching n k v path hv r (hr.of_readers hreaders) (hnum.of_within hdims) h w t hw
    exact ⟨hwv, hreads, fun x hx => hdims.knows (hkeys x hx)⟩

/-! ## Where a run is compared -/

/-- A run of the machine and a meaning that it is compared with: the reference, the height of
the meaning, the dimensions on which the contexts agree, the context of the run and that of the
meaning, and the name under evaluation, if there is one. -/
structure Vantage where
  reference : Reference
  height : Nat
  scope : Dim → Prop
  here : Context
  there : Context
  reader : Option String

namespace Vantage

def beneath (i : Vantage) (ps qs : List (Dim × Value)) : Vantage :=
  { i with
    scope := fun d => i.scope d ∨ (Context.ofList ps).contains d = true
    here := i.here.override (.ofList ps)
    there := i.there.override (.ofList qs) }

end Vantage

variable {α β γ δ : Type} {p : Program} {L : Likeness} {room : Nat} {i : Vantage}
  {s s₁ s' : Machine} {t t₁ t₂ : Trace}

/-- Everything that the innermost frame has read lies within `A`. -/
def Machine.Covered (A : Dim → Prop) (s : Machine) : Prop :=
  ∃ f fs, s.frames = f :: fs ∧ ∀ d ∈ f.reads, A d

theorem Machine.Covered.of_grows {A : Dim → Prop} (h : s'.Covered A) (hs : s.Grows s') :
    s.Covered A := by
  obtain ⟨g, gs, hframes, hA⟩ := h
  have hall := hs.frames
  rw [hframes] at hall
  obtain ⟨f, fs, hfg, -, heq⟩ := List.forall₂_cons_right_iff.mp hall
  exact ⟨f, fs, heq, fun d hd => hA d (hfg.reads d hd)⟩

/-- What is known of a run from `s` before it is compared. The reference numbers values as the
run does, because it has been read off the table that the run reaches, or because it foresees
what the meaning interns. The contexts agree everywhere, or at least on what the run has read,
if it has come to an answer. -/
structure Guided (i : Vantage) (s : Machine) (keys : List Value)
    (ran : Except Fault α × Machine) : Prop where
  numbered : ran.2.dims.NumberedBy i.reference.number ∨
    (∀ d, i.scope d) ∧ Foresees i.reference.number s.dims keys
  covered : (∀ d, i.scope d) ∨ (∃ a, ran.1 = .ok a) ∧ ran.2.Covered i.scope

namespace Guided

theorem start {keys : List Value} {ran : Except Fault α × Machine} (h : Guided i s keys ran)
    (hs : s.Grows ran.2) : s.dims.NumberedBy i.reference.number := by
  rcases h.numbered with hnum | ⟨-, hnum⟩
  · exact hnum.of_within hs.dims
  · exact hnum.numberedBy

theorem left {a : α} {ran : Except Fault β × Machine} (h : Guided i s (t₁ ++ t₂).keys ran)
    (hs : s₁.Grows ran.2) : Guided i s t₁.keys ((.ok a, s₁) : Except Fault α × Machine) := by
  refine ⟨h.numbered.imp (fun hnum => hnum.of_within hs.dims) fun hnum => ?_, ?_⟩
  · exact ⟨hnum.1, hnum.2.left⟩
  · exact h.covered.imp id fun hcov => ⟨⟨a, rfl⟩, hcov.2.of_grows hs⟩

theorem failed {e : Fault} (h : Guided i s (t₁ ++ t₂).keys ((.error e, s₁) :
    Except Fault β × Machine)) :
    Guided i s t₁.keys ((.error e, s₁) : Except Fault α × Machine) := by
  refine ⟨h.numbered.imp id fun hnum => ⟨hnum.1, hnum.2.left⟩, h.covered.imp id ?_⟩
  rintro ⟨⟨_, hok⟩, -⟩
  cases hok

theorem right {ran : Except Fault β × Machine} (h : Guided i s (t₁ ++ t₂).keys ran)
    (ht : Tracks L s.dims t₁.keys s₁.dims) : Guided i s₁ t₂.keys ran :=
  ⟨h.numbered.imp id fun hnum => ⟨hnum.1, hnum.2.right ht⟩, h.covered⟩

/-- The contexts agree on all that the innermost frame has read. -/
theorem reads {keys : List Value} {ran : Except Fault α × Machine} (h : Guided i s keys ran)
    {f : Frame} {fs : List Frame} (hframes : ran.2.frames = f :: fs) :
    ∀ d ∈ f.reads, i.scope d := by
  rcases h.covered with hall | ⟨-, g, gs, hgs, hA⟩
  · exact fun d _ => hall d
  · cases hframes.symm.trans hgs
    exact hA

end Guided

/-! ## The three outcomes -/

/-- A cycle gets out of the run: it leads to an evaluation that was pending at the start. What
is pending means something, at a context that is like the pending one where that is bound, and
is otherwise that of the meaning. -/
def Escapes (i : Vantage) (s s' : Machine) : Prop :=
  ∃ (n : String) (k l : Context) (h : Nat), s.memo.isPending n k = true ∧ h ≤ i.height ∧
    (i.reference.value h n l).isSome = true ∧
    Likeness.equality.Agree (fun d => k.contains d = true) k l ∧
    (∀ d, k.get? d = none → i.here.get? d = none ∧ l.get? d = i.there.get? d) ∧
    Marked n k s'.frames

theorem Escapes.of_grows (h : Escapes i s s₁)
    (hframes : List.Forall₂ Frame.Grows s₁.frames s'.frames) : Escapes i s s' := by
  obtain ⟨n, k, l, height, hpending, hle, hsome, hagree, hothers, hmarked⟩ := h
  exact ⟨n, k, l, height, hpending, hle, hsome, hagree, hothers, hmarked.of_grows hframes⟩

/-- A cycle that gets out of a run gets out of it also as compared with a higher meaning, whose
context is the same where that of the run binds nothing. -/
theorem Escapes.of_le {j : Vantage} (h : Escapes j s s') (hreference : j.reference = i.reference)
    (hhere : j.here = i.here) (hle : j.height ≤ i.height)
    (hthere : ∀ d, i.here.get? d = none → j.there.get? d = i.there.get? d) : Escapes i s s' := by
  obtain ⟨n, k, l, height, hpending, hheight, hsome, hagree, hothers, hmarked⟩ := h
  refine ⟨n, k, l, height, hpending, Nat.le_trans hheight hle, hreference ▸ hsome, hagree,
    fun d hd => ?_, hmarked⟩
  obtain ⟨hk, hl⟩ := hothers d hd
  rw [hhere] at hk
  exact ⟨hk, hl.trans (hthere d hk)⟩

/-- The innermost frame has read what the meaning reads; without caching, nothing else. -/
def Heeds (p : Program) (s : Machine) (t : Trace) (s' : Machine) : Prop :=
  ∀ g gs, s'.frames = g :: gs → (∀ d ∈ t.reads, d ∈ g.reads) ∧
    (p.config.caching = false → ∀ f fs, s.frames = f :: fs →
      ∀ d ∈ g.reads, d ∈ f.reads ∨ d ∈ t.reads)

/-- Every name that has become known at a context means something there. -/
def Fresh (i : Vantage) (s s' : Machine) : Prop :=
  ∀ n k, (s'.memo.known? n k).isSome = true →
    (s.memo.known? n k).isSome = true ∨ (i.reference.value i.height n k).isSome = true

/-- How a run from `s` with `room` for further evaluations goes together with a meaning that
answers `b` and leaves `t` behind. -/
inductive Accord (p : Program) (L : Likeness) (room : Nat) (i : Vantage) (R : α → β → Prop)
    (s : Machine) (b : β) (t : Trace) : Except Fault α × Machine → Prop
  | ok {a : α} {s' : Machine} : s'.stats.loops = s.stats.loops → R a b → Heeds p s t s' →
    Tracks L s.dims t.keys s'.dims → Fresh i s s' → Accord p L room i R s b t (.ok a, s')
  | error {e : Fault} {s' : Machine} : s'.stats.loops = s.stats.loops →
    (∀ n dims, e ≠ .unkeyedLeaf n dims) →
    ¬ (i.height ≤ room ∧ Foresees i.reference.number s.dims t.keys) →
    Accord p L room i R s b t (.error e, s')
  | looped {r : Except Fault α} {s' : Machine} : s.stats.loops < s'.stats.loops →
    (p.config.caching = true → Escapes i s s') → Accord p L room i R s b t (r, s')

/-- Every run accords with what is meant, where something is meant. -/
def Follows (p : Program) (L : Likeness) (room : Nat) (i : Vantage) (R : α → β → Prop)
    (x : EvalM α) (y : Meaning β) : Prop :=
  ∀ s, p.consistent.holds s → s.reader = i.reader →
    i.reference.Describes p (x s).2 i.reader →
    ∀ b t, y (i.reference.sense i.height) = some (b, t) → Guided i s t.keys (x s) →
      Accord p L room i R s b t (x s)

/-! ## Steps of an evaluation -/

theorem Escapes.from (h : Escapes i s₁ s') (hs : s.Grows s₁) : Escapes i s s' := by
  obtain ⟨n, k, l, h, hpending, hrest⟩ := h
  exact ⟨n, k, l, h, (hs.pending n k).symm.trans hpending, hrest⟩

theorem Heeds.trans (h : Heeds p s t₁ s₁) (h' : Heeds p s₁ t₂ s') (hs : s₁.Grows s') :
    Heeds p s (t₁ ++ t₂) s' := by
  intro g gs hframes
  have hall := hs.frames
  rw [hframes] at hall
  obtain ⟨f, fs, hfg, -, heq⟩ := List.forall₂_cons_right_iff.mp hall
  obtain ⟨hreads₁, hexact₁⟩ := h f fs heq
  obtain ⟨hreads₂, hexact₂⟩ := h' g gs hframes
  refine ⟨fun d hd => ?_, fun hcaching f₀ fs₀ h₀ d hd => ?_⟩
  · rcases List.mem_append.mp hd with hd | hd
    · exact hfg.reads d (hreads₁ d hd)
    · exact hreads₂ d hd
  · rcases hexact₂ hcaching f fs heq d hd with hd | hd
    · exact (hexact₁ hcaching f₀ fs₀ h₀ d hd).imp id (List.mem_append_left _)
    · exact .inr (List.mem_append_right _ hd)

theorem Fresh.trans (h : Fresh i s s₁) (h' : Fresh i s₁ s') : Fresh i s s' := fun n k hk =>
  (h' n k hk).elim (h n k) .inr

theorem Fresh.of_tries (h : s'.memo.tries = s.memo.tries) : Fresh i s s' := fun n k hk => by
  rw [Memo.known?_congr h] at hk
  exact .inl hk

theorem follows_pure {R : α → β → Prop} {a : α} {b : β} (hab : R a b) :
    Follows p L room i R (pure a) (pure b) := by
  intro s _ _ _ b' t hb _
  obtain ⟨rfl, rfl⟩ := Meaning.pure_eq_some.mp hb
  refine .ok rfl hab (fun g gs hframes => ⟨fun d hd => ?_, fun _ f fs hf d hd => .inl ?_⟩)
    (.nil _) (.of_tries rfl)
  · cases hd
  · cases hf.symm.trans hframes
    exact hd

theorem follows_bind {R : α → β → Prop} {S : γ → δ → Prop} {x : EvalM α} {y : Meaning β}
    {f : α → EvalM γ} {g : β → Meaning δ} (hx : EvalM.Keeps p.consistent x)
    (hf : ∀ a, EvalM.Keeps p.consistent (f a)) (hxy : Follows p L room i R x y)
    (hfg : ∀ a b, R a b → Follows p L room i S (f a) (g b)) :
    Follows p L room i S (x >>= f) (y >>= g) := by
  intro s hs hreader hdesc d t hd hguided
  obtain ⟨b, t₁, t₂, hb, hd₂, rfl⟩ := Meaning.bind_eq_some.mp hd
  obtain ⟨hgrows, hholds⟩ := hx s
  have hfirst := hxy s hs hreader
  rcases hres : x s with ⟨e | a, s₁⟩
  · rw [Action.bind_of_error hres] at hdesc hguided ⊢
    rw [hres] at hfirst
    generalize hran : ((Except.error e, s₁) : Except Fault α × Machine) = ran at hfirst
    cases hfirst (hran ▸ hdesc) b t₁ hb (hran ▸ hguided.failed) with
    | ok => cases hran
    | error hloops hkey hroom =>
      cases hran
      exact .error hloops hkey fun h => hroom ⟨h.1, h.2.left⟩
    | looped hloops hescapes =>
      cases hran
      exact .looped hloops hescapes
  · rw [Action.bind_of_ok hres] at hdesc hguided ⊢
    rw [hres] at hfirst hgrows hholds
    obtain ⟨hgrows', -⟩ := hf a s₁
    generalize hran : ((Except.ok a, s₁) : Except Fault α × Machine) = ran at hfirst
    cases hfirst (hran ▸ hdesc.of_grows hgrows') b t₁ hb (hran ▸ hguided.left hgrows') with
    | error => cases hran
    | looped hloops hescapes =>
      cases hran
      exact .looped (Nat.lt_of_lt_of_le hloops hgrows'.loops) fun h =>
        (hescapes h).of_grows hgrows'.frames
    | ok hloops hab hheeds htracks hfresh =>
      cases hran
      have hsecond := hfg a b hab s₁ (hholds hs) (hgrows.reader.trans hreader) hdesc d t₂ hd₂
        (hguided.right htracks)
      generalize f a s₁ = ran at hsecond hgrows'
      cases hsecond with
      | ok hloops' hcd hheeds' htracks' hfresh' =>
        exact .ok (hloops'.trans hloops) hcd (hheeds.trans hheeds' hgrows')
          (htracks.append htracks') (hfresh.trans hfresh')
      | error hloops' hkey hroom =>
        exact .error (hloops'.trans hloops) hkey fun h => hroom ⟨h.1, h.2.right htracks⟩
      | looped hloops' hescapes =>
        exact .looped (hloops ▸ hloops') fun h => (hescapes h).from hgrows

/-- Reading some dimensions, and answering by what they are bound to. -/
theorem follows_noting {R : α → α → Prop} {dims : IndexSet} {a b : α}
    (hab : (∀ d ∈ dims, i.scope d) → R a b) :
    Follows p L room i R (do EvalM.noteReads dims; pure a) (do Evaluator.note dims; pure b) := by
  intro s hs _ _ b' t hb hguided
  obtain ⟨_, t₁, t₂, hnote, hpure, rfl⟩ := Meaning.bind_eq_some.mp hb
  obtain ⟨rfl, rfl⟩ := Meaning.pure_eq_some.mp hpure
  cases hnote
  have hran : (do EvalM.noteReads dims; pure a : EvalM α) s = (.ok a, s.noteReads dims) := rfl
  rw [hran] at hguided ⊢
  refine .ok (by rw [noteReads_stats]) (hab fun d hd => ?_) (fun g gs hframes => ?_) ?_
    (.of_tries (by rw [noteReads_memo]))
  · rcases hguided.covered with hall | ⟨-, g, gs, hframes, hA⟩
    · exact hall d
    · rw [noteReads_frames] at hframes
      split at hframes
      · cases hframes
      · cases hframes
        exact hA d (IndexSet.mem_union.mpr (.inl hd))
  · rw [noteReads_frames] at hframes
    split at hframes
    · cases hframes
    · rename_i f fs hf
      cases hframes
      refine ⟨fun d hd => IndexSet.mem_union.mpr (.inl ?_), fun _ f' fs' hf' d hd => ?_⟩
      · simpa [Trace.nothing, IndexSet.mem_def] using hd
      · cases hf'.symm.trans hf
        refine (IndexSet.mem_union.mp hd).symm.imp id fun hd => ?_
        exact List.mem_append_left _ hd
  · rw [noteReads_dims]
    exact .nil _

theorem follows_intern {v w : Value} (hvw : L.same v w) :
    Follows p L room i Eq (EvalM.internValue v) (Evaluator.intern w : Meaning Dim) := by
  intro s _ _ _ d t hd hguided
  cases hd
  have hrun : EvalM.internValue v s =
      ((internValue v s.dims).1, { s with dims := (internValue v s.dims).2 }) := rfl
  rw [hrun] at hguided ⊢
  have hbeq := L.beq hvw
  rcases hres : internValue v s.dims with ⟨e | d, T⟩
  · rw [hres] at hguided
    have hnot : ¬ Foresees i.reference.number s.dims [w] := fun h => by
      obtain ⟨U, hU⟩ := h.intern hbeq
      cases hres.symm.trans hU
    obtain ⟨size, rfl⟩ := internValue_error hres
    exact .error rfl (fun n dims he => by cases he) fun h => hnot h.2
  · rw [hres] at hguided
    have hnum : d = i.reference.number w := by
      rcases hguided.numbered with hnum | ⟨-, hnum⟩
      · rw [← i.reference.number_congr hbeq]
        exact (hnum v d (place?_internValue hres)).symm
      · obtain ⟨U, hU⟩ := hnum.intern hbeq
        cases hres.symm.trans hU
        rfl
    refine .ok rfl hnum (fun g gs hframes => ⟨fun x hx => ?_, fun _ f fs hf x hx => .inl ?_⟩)
      ⟨[v], .cons hvw .nil, .single hres⟩ (.of_tries rfl)
    · cases hx
    · cases hf.symm.trans hframes
      exact hx

section Beneath

variable {ps qs : List (Dim × Value)} {c : Machine} {f : Frame} {fs : List Frame}

/-- What guides the comparison of the whole guides that of the body. -/
theorem Guided.beneath {r : Except Fault Value} {keys : List Value}
    (h : Guided i s keys (r, c.endingBody (.ofList ps) f fs)) (hframes : c.frames = f :: fs) :
    Guided (i.beneath ps qs) (s.push (.new none)) keys (r, c) := by
  obtain ⟨hnumbered, hcovered⟩ := h
  rw [endingBody_dims] at hnumbered
  refine ⟨hnumbered.imp id fun h => ⟨fun d => .inl (h.1 d), h.2⟩,
    hcovered.imp (fun h d => .inl (h d)) ?_⟩
  rintro ⟨hok, g, gs, hgs, hA⟩
  obtain ⟨g₀, -, hmem⟩ := endingBody_frames hgs
  refine ⟨hok, f, fs, hframes, fun d hd => ?_⟩
  by_cases hc : (Context.ofList ps).contains d = true
  · exact .inr hc
  · exact .inl (hA d ((hmem d).mpr (.inl ⟨hd, Bool.eq_false_iff.mpr hc⟩)))

theorem Heeds.beneath (hpq : L.Bindings ps qs) (h : Heeds p (s.push (.new none)) t c)
    (hframes : c.frames = f :: fs) (hstill : fs.map Frame.reads = s.frames.map Frame.reads) :
    Heeds p s (t.outside (.ofList qs)) (c.endingBody (.ofList ps) f fs) := by
  intro g gs hgs
  obtain ⟨g₀, rfl, hmem⟩ := endingBody_frames hgs
  obtain ⟨hreads, hexact⟩ := h f _ hframes
  refine ⟨fun d hd => ?_, fun hcaching f₀ fs₀ hf₀ d hd => ?_⟩
  · obtain ⟨hd, hc⟩ := List.mem_filter.mp hd
    rw [← hpq.contains, Bool.not_eq_true'] at hc
    exact (hmem d).mpr (.inl ⟨hreads d hd, hc⟩)
  · rcases (hmem d).mp hd with ⟨hd, hc⟩ | hd
    · refine .inr (List.mem_filter.mpr ⟨?_, by rw [← hpq.contains, hc]; rfl⟩)
      exact (hexact hcaching _ _ rfl d hd).resolve_left IndexSet.not_mem_empty
    · rw [hf₀, List.map_cons, List.map_cons, List.cons.injEq] at hstill
      exact .inl (hstill.1 ▸ hd)

/-- A cycle that gets out of the body gets out of the whole: no name is evaluated in the frame of
the body. -/
theorem Escapes.beneath (hpq : L.Bindings ps qs) (hframes : c.frames = f :: fs)
    (hf : (Frame.new none).Grows f) (h : Escapes (i.beneath ps qs) (s.push (.new none)) c) :
    Escapes i s (c.endingBody (.ofList ps) f fs) := by
  obtain ⟨n, k, l, h, hpending, hle, hsome, hagree, hothers, hmarked⟩ := h
  refine ⟨n, k, l, h, hpending, hle, hsome, hagree, fun d hd => ?_, ?_⟩
  · obtain ⟨hhere, hthere⟩ := hothers d hd
    simp only [Vantage.beneath, Context.get?_override, Option.or_eq_none_iff] at hhere hthere
    have hnone : (Context.ofList qs).get? d = none := by
      rw [← Option.not_isSome_iff_eq_none, ← Context.contains, ← hpq.contains,
        Context.contains, hhere.1]
      exact Bool.false_ne_true
    rw [hnone, Option.none_or] at hthere
    exact ⟨hhere.2, hthere⟩
  · rw [hframes] at hmarked
    rcases hmarked with hbelongs | ⟨-, hmarked⟩
    · rw [← hf.belongsTo] at hbelongs
      cases hbelongs
    · exact hmarked.of_grows grows_endingBody

/-- A body under changed bindings: what it reads of the bindings stays inside. -/
theorem follows_beneath {x : EvalM Value} {y : Meaning Value} {R : Value → Value → Prop}
    (hpq : L.Bindings ps qs) (hx : EvalM.Keeps p.consistent x)
    (hxy : Follows p L room (i.beneath ps qs) R x y) :
    Follows p L room i R (Evaluator.beneath (.ofList ps) x)
      (Evaluator.beneath (.ofList qs) y) := by
  intro s hs hreader hdesc b t hb hguided
  obtain ⟨u, hu, rfl⟩ := Meaning.beneath_eq_some.mp hb
  obtain ⟨hgrows, -⟩ := hx (s.push (.new none))
  have hinner := hxy (s.push (.new none)) (Machine.Invariant.frames hs _) hreader
  rcases hrun : x (s.push (.new none)) with ⟨r, c⟩
  rw [hrun] at hgrows hinner
  obtain ⟨f, fs, hframes, hf, -, hstill⟩ := hgrows.innermost rfl
  rw [EvalM.beneath_apply hrun hframes] at hdesc hguided ⊢
  have hdesc' : (i.beneath ps qs).reference.Describes p c i.reader :=
    hdesc.of_readers (by rw [endingBody_readers]; exact fun _ _ => id)
  have hloops : (c.endingBody (.ofList ps) f fs).stats.loops = c.stats.loops := by
    rw [endingBody_stats]
  generalize hran : (r, c) = ran at hinner
  cases hinner (hran ▸ hdesc') b u hu (hran ▸ hguided.beneath hframes) with
  | ok hsame hR hheeds htracks hfresh =>
    cases hran
    refine .ok (hloops.trans hsame) hR (hheeds.beneath hpq hframes hstill) ?_ fun n k hk => ?_
    · rw [endingBody_dims]
      exact htracks
    · rw [endingBody_memo] at hk
      exact hfresh n k hk
  | error hsame hkey hroom =>
    cases hran
    exact .error (hloops.trans hsame) hkey hroom
  | looped hless hescapes =>
    cases hran
    exact .looped (hloops ▸ hless) fun hcaching => (hescapes hcaching).beneath hpq hframes hf

end Beneath

/-- Following is respected by every step of an evaluation. -/
def following (p : Program) (L : Likeness) (room : Nat) :
    Relator (Kept p.consistent) Meaning where
  Index := Vantage
  like := L
  contexts i k l := i.here = k ∧ i.there = l ∧ L.Agree i.scope k l
  rel i _ _ R x y := Follows p L room i R x.val y
  pure hab := follows_pure hab
  bind {_ _ _ _ _ _ _ x _ f _} hxy hfg :=
    follows_bind x.property (fun a => (f a).property) hxy hfg
  look d hkl := follows_noting fun hA => hkl.2.2.valueAt (hA d (by simp))
  consult s hkl := by
    refine follows_noting fun hA => ?_
    rw [hkl.2.2.source hA]
    exact L.refl _
  test g hkl := follows_noting fun hA => hkl.2.2.holdsAt hA
  intern hvw := follows_intern hvw
  beneath {i k l ps qs} hkl hpq := by
    obtain ⟨rfl, rfl, hagree⟩ := hkl
    exact ⟨i.beneath ps qs, ⟨rfl, rfl, hagree.override hpq⟩,
      fun x y hxy => follows_beneath hpq x.property hxy⟩

end Intensional
