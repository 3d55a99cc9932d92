import Intensional.Proofs.Evaluation.Accord

/-!
# Names on the machine against their meanings

Every evaluation of a name follows its meaning, and keeps the memo consistent
(`Program.names_follow`). The two are proved together, by recursion on
the room that is left: what is stored for a name holds for all contexts that agree on what was
read, and this is the comparison of the run with the meanings at all of them.

The case with an argument is a cycle that leads back to the name itself. The meaning that the
run was compared with then contains a meaning of the same name, at a context that agrees with
the run as well, and at a smaller height. So the comparison starts again from there, and by
induction on the height it ends.
-/

namespace Intensional

open Machine DimTable

namespace Program

variable {p : Program} {L : Likeness} {room depth : Nat} {n : String} {g : Group} {k : Context}
  {s c : Machine} {f : Frame} {fs : List Frame} {res : Except Fault Value}
  {ran : Except Fault Value × Machine} {i : Vantage} {b : Value} {t : Trace}

/-! ## The run of a body -/

/-- The equations of a name have answered `res` and reached `c`, with the frame `f` of the name
in front of `fs`. The run accords with the meaning of the equations from every vantage. -/
structure Evaluates (p : Program) (L : Likeness) (room : Nat) (n : String) (g : Group)
    (k : Context) (s : Machine) (res : Except Fault Value) (c : Machine) (f : Frame)
    (fs : List Frame) : Prop where
  group : p.group? n = some g
  grows : (s.enter n k).Grows c
  frames : c.frames = f :: fs
  accords (i : Vantage) : i.reader = some n → i.here = k → L.Agree i.scope k i.there →
    i.reference.Describes p c (some n) → ∀ b t,
      i.reference.body g i.there (i.reference.sense i.height) = some (b, t) →
        Guided i (s.enter n k) t.keys (res, c) →
          Accord p L room i L.same (s.enter n k) b t (res, c)

/-- A cycle that gets out of the equations of a name makes its frame provisional and gets out
of the name, or leads back to it. -/
theorem Evaluates.escapes (h : Evaluates p L room n g k s res c f fs)
    (hescapes : Escapes i (s.enter n k) c) :
    f.provisional = true ∧ Escapes i s { c with frames := fs } ∨
      ∃ h l, h ≤ i.height ∧ (i.reference.value h n l).isSome = true ∧
        Likeness.equality.Agree (fun d => k.contains d = true) k l ∧
          ∀ d, k.get? d = none → l.get? d = i.there.get? d := by
  obtain ⟨m, κ, l, height, hpending, hheight, hsome, hagree, hothers, hmarked⟩ := hescapes
  obtain ⟨f', fs', hframes, hf, -⟩ := h.grows.innermost rfl
  cases h.frames.symm.trans hframes
  rw [isPending_enter] at hpending
  cases hself : (n, k) == (m, κ) with
  | true =>
    rw [beq_pair, Bool.and_eq_true, beq_iff_eq] at hself
    obtain ⟨rfl, hk⟩ : n = m ∧ (k == κ) = true := hself
    have hkκ := fun d => Likeness.agree_of_beq hk (fun _ => True) d trivial
    refine .inr ⟨height, l, hheight, hsome, fun d hd => ?_, fun d hd => (hothers d ?_).2⟩
    · refine Likeness.equality_trans (hkκ d) (hagree d ?_)
      exact (Likeness.rel_isSome (hkκ d)).symm.trans hd
    · rw [← Option.isNone_iff_eq_none, ← Option.not_isSome, ← Likeness.rel_isSome (hkκ d), hd]
      rfl
  | false =>
    rw [hself, Bool.false_or] at hpending
    rw [h.frames] at hmarked
    rcases hmarked with hbelongs | ⟨hprovisional, hmarked⟩
    · rw [Frame.belongsTo, ← hf.owner] at hbelongs
      have hbelongs : ((n, k) == (m, κ)) = true := hbelongs
      rw [hself] at hbelongs
      cases hbelongs
    · exact .inl ⟨hprovisional, m, κ, l, height, hpending, hheight, hsome, hagree, hothers, hmarked⟩

/-- What guides a comparison guides a comparison with another meaning of the name, at a smaller
height, if this one is at a like context wherever the first one was. -/
theorem restart_guided (hops : L.Keeps i.reference.operators) (hguided : Guided i s t.keys ran)
    (hb : i.reference.value i.height n i.there = some (b, t)) {j : Vantage}
    (hscope : j.scope = i.scope) (hreference : j.reference = i.reference)
    (hle : j.height ≤ i.height) {w : Value} {u : Trace}
    (hw : i.reference.value j.height n j.there = some (w, u))
    (hagree : (∀ d, i.scope d) → L.Agree (· ∈ u.reads) j.there i.there) :
    Guided j s u.keys ran := by
  refine ⟨?_, by rw [hscope]; exact hguided.covered⟩
  rw [hscope, hreference]
  refine hguided.numbered.imp id fun ⟨hall, hforesees⟩ => ⟨hall, ?_⟩
  obtain ⟨w', u', hw', -, -, hkeys⟩ := Reference.value_depends hops hle hw (hagree hall)
  cases hb.symm.trans hw'
  exact hforesees.alike (.refl _) (hkeys.flip.imp fun _ _ h => BEq.symm (L.beq h))

/-- Compared with a meaning of the name, the equations accord without a cycle, or a cycle has
made the frame of the name provisional. The induction is on the height of the meaning, for all
meanings that the run agrees with: where a cycle leads back to the name itself, the comparison
starts again from the meaning that is met there, which is less high. -/
theorem Evaluates.settles (hops : L.Keeps p.vocabulary.operators)
    (hL : p.config.caching = true → L = .equality) (h : Evaluates p L room n g k s res c f fs)
    (hhere : i.here = k) (hagree : L.Agree i.scope k i.there)
    (hdesc : i.reference.Describes p c (some n))
    (hb : i.reference.value i.height n i.there = some (b, t))
    (hguided : Guided i (s.enter n k) t.keys (res, c)) :
    (∃ height, i.height = height + 1 ∧ c.stats.loops = s.stats.loops ∧
      Accord p L room { i with height := height, reader := some n } L.same (s.enter n k) b t
        (res, c)) ∨
    (s.stats.loops < c.stats.loops ∧ (p.config.caching = true →
      f.provisional = true ∧ Escapes i s { c with frames := fs })) := by
  generalize hheight : i.height = height
  induction height using Nat.strongRecOn generalizing i b t with
  | ind height ih =>
  have hgroup : i.reference.group? n = some g := hdesc.group.trans h.group
  obtain ⟨height, rfl⟩ : ∃ m, height = m + 1 := by
    cases height with
    | zero => rw [hheight, Reference.value_zero hgroup] at hb; cases hb
    | succ m => exact ⟨m, rfl⟩
  have hbody : i.reference.body g i.there (i.reference.sense height) = some (b, t) := by
    rw [← Reference.value_succ hgroup, ← hheight]
    exact hb
  let j : Vantage := { i with height := height, reader := some n }
  have haccord := h.accords j rfl hhere hagree hdesc b t hbody ⟨hguided.numbered, hguided.covered⟩
  have hstart : (s.enter n k).stats.loops = s.stats.loops := rfl
  generalize hrun : (res, c) = run at haccord
  cases haccord with
  | ok hsame hlike hheeds htracks hfresh =>
    cases hrun
    exact .inl ⟨height, rfl, hsame, .ok hsame hlike hheeds htracks hfresh⟩
  | error hsame hkey hroom =>
    cases hrun
    exact .inl ⟨height, rfl, hsame, .error hsame hkey hroom⟩
  | looped hless hescapes =>
    cases hrun
    refine .inr ⟨hless, fun hcaching => ?_⟩
    rcases h.escapes (hescapes hcaching) with
      ⟨hprovisional, hout⟩ | ⟨h', l, hle, hsome, hbound, hfree⟩
    · exact ⟨hprovisional, hout.of_le rfl rfl (hheight ▸ Nat.le_succ height) fun _ _ => rfl⟩
    · obtain rfl := hL hcaching
      obtain ⟨⟨w, u⟩, hw⟩ := Option.isSome_iff_exists.mp hsome
      have hlt : h' < height + 1 := Nat.lt_succ_of_le hle
      have hkl : Likeness.equality.Agree i.scope k l := by
        intro d hd
        cases hkd : k.get? d with
        | none => rw [hfree d hkd, ← hkd]; exact hagree d hd
        | some v => rw [← hkd]; exact hbound d (Context.contains_iff.mpr ⟨v, hkd⟩)
      have hrestart := restart_guided (j := { i with height := h', there := l })
        (hdesc.operators ▸ hops) hguided hb rfl rfl (hheight ▸ Nat.le_of_lt hlt) hw
        fun hall d _ =>
          Likeness.equality_trans (Likeness.equality_symm (hkl d (hall d))) (hagree d (hall d))
      rcases ih h' hlt (i := { i with height := h', there := l }) hhere hkl hdesc hw hrestart rfl
        with ⟨_, -, hsame, -⟩ | ⟨-, hescapes⟩
      · omega
      · obtain ⟨hprovisional, hout⟩ := hescapes hcaching
        exact ⟨hprovisional, hout.of_le rfl rfl (hheight ▸ Nat.le_of_lt hlt)
          fun d hd => hfree d (hhere ▸ hd)⟩

/-- A leaf that has come in the way during the run would mean something at every smaller height,
down to where nothing does. -/
theorem Evaluates.no_leaf (hops : L.Keeps p.vocabulary.operators)
    (hL : p.config.caching = true → L = .equality) {v : Value}
    (h : Evaluates p L room n g k s (.ok v) c f fs) (hmiss : s.memo.known? n k = none)
    (hsame : c.stats.loops = s.stats.loops) (hhere : i.here = k)
    (hdesc : i.reference.Describes p c (some n)) (hthere : i.there = k)
    (hb : i.reference.value i.height n k = some (b, t))
    (hguided : Guided i (s.enter n k) t.keys ((.ok v, c) : Except Fault Value × Machine)) :
    c.memo.known? n k = none := by
  by_contra hleaf
  generalize hheight : i.height = height at hb
  induction height generalizing i b t with
  | zero =>
    rw [Reference.value_zero (hdesc.group.trans h.group)] at hb
    cases hb
  | succ height ih =>
    have hb' : i.reference.value i.height n i.there = some (b, t) := by
      rw [hthere, hheight]
      exact hb
    have hagree : L.Agree i.scope k i.there := by
      rw [hthere]
      exact .refl _ k
    rcases h.settles hops hL hhere hagree hdesc hb' hguided with
      ⟨height', hsucc, -, haccord⟩ | ⟨hless, -⟩
    · cases haccord with
      | looped hless => exact absurd hsame (Nat.ne_of_gt hless)
      | ok _ _ _ _ hfresh =>
        obtain rfl : height' = height := Nat.succ.inj (hsucc.symm.trans hheight)
        have hknown : (i.reference.value height' n k).isSome = true := by
          refine (hfresh n k (Option.isSome_iff_ne_none.mpr hleaf)).resolve_left ?_
          show ¬ (s.memo.known? n k).isSome = true
          rw [hmiss]
          exact Bool.false_ne_true
        obtain ⟨⟨w, u⟩, hw⟩ := Option.isSome_iff_exists.mp hknown
        have hrestart := restart_guided (j := { i with height := height' })
          (hdesc.operators ▸ hops) hguided hb' rfl rfl (hheight ▸ Nat.le_succ height')
          (hthere ▸ hw) fun _ => .refl _ _
        exact ih (i := { i with height := height' }) hhere hdesc hthere hrestart rfl hw
    · omega

/-! ## From the body to the name -/

theorem Concludes.guided (h : Concludes p n k depth c f fs res ran) (hframes : c.frames = f :: fs)
    (hguided : Guided i s t.keys ran) : Guided i (s.enter n k) t.keys (res, c) := by
  obtain ⟨hdims, -, -⟩ := h.settled
  refine ⟨hdims ▸ hguided.numbered, hguided.covered.imp id ?_⟩
  rintro ⟨⟨v, hv⟩, g, gs, hgs, hA⟩
  obtain ⟨hres, c', hc', hran⟩ := h.answered hv
  refine ⟨⟨v, hres⟩, f, fs, hframes, fun d hd => hA d ?_⟩
  rw [hran, noteReads_frames] at hgs
  split at hgs
  · cases hgs
  · cases hgs
    exact IndexSet.mem_union.mpr (.inl hd)

theorem Concludes.heeds (h : Concludes p n k depth c f fs res ran) {v : Value} (hv : ran.1 = .ok v)
    (hframes : c.frames = f :: fs) (hstill : fs.map Frame.reads = s.frames.map Frame.reads)
    (hheeds : Heeds p (s.enter n k) t c) : Heeds p s t ran.2 := by
  intro g gs hgs
  obtain ⟨-, c', hc', hran⟩ := h.answered hv
  obtain ⟨hreads, hexact⟩ := hheeds f fs hframes
  rw [hran, noteReads_frames, hc'] at hgs
  cases fs with
  | nil => cases hgs
  | cons g₀ fs =>
    cases hgs
    refine ⟨fun d hd => IndexSet.mem_union.mpr (.inl (hreads d hd)), ?_⟩
    intro hcaching f₀ fs₀ hf₀ d hd
    rcases IndexSet.mem_union.mp hd with hd | hd
    · exact .inr ((hexact hcaching _ _ rfl d hd).resolve_left IndexSet.not_mem_empty)
    · rw [hf₀, List.map_cons, List.map_cons, List.cons.injEq] at hstill
      exact .inl (hstill.1 ▸ hd)

/-- What has been stored for a name means something: it was stored over at least the reads of
the meaning that the run was compared with. -/
theorem Concludes.fresh (hops : L.Keeps i.reference.operators)
    (hL : p.config.caching = true → L = .equality) (h : Concludes p n k depth c f fs res ran)
    (hscope : ∀ d ∈ f.reads, i.scope d) (hagree : L.Agree i.scope k i.there)
    (hb : i.reference.value i.height n i.there = some (b, t)) (hreads : ∀ d ∈ t.reads, d ∈ f.reads)
    {j : Vantage} (hreference : j.reference = i.reference) (hle : j.height ≤ i.height)
    (hfresh : Fresh j (s.enter n k) c) : Fresh i s ran.2 := by
  intro m l hm
  obtain ⟨⟨w, path⟩, hw⟩ := Option.isSome_iff_exists.mp hm
  rcases h.recalled hw with hold | ⟨hcaching, -, -, -, rfl, hpath, hstored⟩
  · refine (hfresh m l (Option.isSome_iff_exists.mpr ⟨_, hold⟩)).imp id fun hsome => ?_
    obtain ⟨⟨u, tu⟩, hu⟩ := Option.isSome_iff_exists.mp hsome
    rw [hreference] at hu
    exact Option.isSome_iff_exists.mpr ⟨_, Reference.value_mono hle hu⟩
  · obtain rfl := hL hcaching
    have hl : Likeness.equality.Agree (· ∈ t.reads) i.there l := fun d hd =>
      Likeness.equality_trans (Likeness.equality_symm (hagree d (hscope d (hreads d hd))))
        (hpath d (hstored d (hreads d hd)))
    obtain ⟨u, tu, hu, -⟩ := Reference.value_depends hops (Nat.le_refl _) hb hl
    exact .inr (Option.isSome_iff_exists.mpr ⟨_, hu⟩)

/-- Where the equations have accorded with the meaning of a name, no leaf is in the way. -/
theorem Evaluates.no_leaf_of_fresh (hops : L.Keeps p.vocabulary.operators)
    (hL : p.config.caching = true → L = .equality) {v : Value}
    (h : Evaluates p L room n g k s (.ok v) c f fs) (hmiss : s.memo.known? n k = none)
    (hsame : c.stats.loops = s.stats.loops) (hhere : i.here = k)
    (hagree : L.Agree i.scope k i.there) (hdesc : i.reference.Describes p c (some n))
    (hb : i.reference.value i.height n i.there = some (b, t))
    (hguided : Guided i (s.enter n k) t.keys ((.ok v, c) : Except Fault Value × Machine))
    {j : Vantage} (hreference : j.reference = i.reference) (hle : j.height ≤ i.height)
    (hfresh : Fresh j (s.enter n k) c) : c.memo.known? n k = none := by
  by_contra hleaf
  have hknown : (j.reference.value j.height n k).isSome = true := by
    refine (hfresh n k (Option.isSome_iff_ne_none.mpr hleaf)).resolve_left ?_
    show ¬ (s.memo.known? n k).isSome = true
    rw [hmiss]
    exact Bool.false_ne_true
  obtain ⟨⟨w, u⟩, hw⟩ := Option.isSome_iff_exists.mp hknown
  rw [hreference] at hw
  have hrestart := restart_guided (j := { i with height := j.height, there := k })
    (hdesc.operators ▸ hops) hguided hb rfl rfl hle hw fun hall d _ => hagree d (hall d)
  exact hleaf (h.no_leaf hops hL hmiss hsame (i := { i with height := j.height, there := k })
    hhere hdesc rfl hw hrestart)

/-- If the equations of a name accord with their meaning, so does the name. -/
theorem Evaluates.concludes (hops : L.Keeps p.vocabulary.operators)
    (hL : p.config.caching = true → L = .equality) (h : Evaluates p L room n g k s res c f fs)
    (hconcludes : Concludes p n k depth c f fs res ran)
    (hmiss : p.config.caching = true → s.memo.known? n k = none) (hhere : i.here = k)
    (hagree : L.Agree i.scope k i.there) (hdesc : i.reference.Describes p ran.2 (some n))
    (hb : i.reference.value i.height n i.there = some (b, t)) (hguided : Guided i s t.keys ran) :
    Accord p L (room + 1) i L.same s b t ran := by
  obtain ⟨hdims, hreaders, hloops⟩ := hconcludes.settled
  have hdesc' : i.reference.Describes p c (some n) :=
    hdesc.of_readers (by rw [hreaders]; exact fun _ _ => id)
  have hbody := hconcludes.guided h.frames hguided
  rcases h.settles hops hL hhere hagree hdesc' hb hbody with
    ⟨height, hheight, hsame, haccord⟩ | ⟨hless, hescapes⟩
  · cases haccord with
    | looped hless => exact absurd hsame (Nat.ne_of_gt hless)
    | error _ hkey hroom =>
      cases hconcludes
      refine .error hsame hkey fun ⟨hle, hforesees⟩ => hroom ⟨?_, hforesees⟩
      rw [hheight] at hle
      exact Nat.le_of_succ_le_succ hle
    | @ok v _ _ hlike hheeds htracks hfresh =>
      have hfollows : ran.1 = .ok v → Accord p L (room + 1) i L.same s b t (.ok v, ran.2) := by
        intro hv
        obtain ⟨f', fs', hframes, -, -, hstill⟩ := h.grows.innermost rfl
        cases h.frames.symm.trans hframes
        refine .ok (hloops.trans hsame) hlike (hconcludes.heeds hv h.frames hstill hheeds)
          (hdims ▸ htracks) ?_
        exact hconcludes.fresh (hdesc.operators ▸ hops) hL (hbody.reads h.frames) hagree hb
          (hheeds f fs h.frames).1 (j := { i with height := height, reader := some n }) rfl
          (hheight ▸ Nat.le_succ height) hfresh
      cases hconcludes with
      | passed => exact hfollows rfl
      | stored => exact hfollows rfl
      | refused _ e hcaching hstore =>
        have hleaf : (c.memo.known? n k).isSome = true := (Memo.store_error hstore).2
        rw [h.no_leaf_of_fresh hops hL (hmiss hcaching) hsame hhere hagree hdesc' hb hbody
          (j := { i with height := height, reader := some n }) rfl
          (hheight ▸ Nat.le_succ height) hfresh] at hleaf
        cases hleaf
  · show Accord p L (room + 1) i L.same s b t (ran.1, ran.2)
    exact .looped (hloops ▸ hless) fun hcaching =>
      (hescapes hcaching).2.of_grows hconcludes.outer

theorem Evaluates.consistent (hops : L.Keeps p.vocabulary.operators)
    (hL : p.config.caching = true → L = .equality) (h : Evaluates p L room n g k s res c f fs)
    (hconcludes : Concludes p n k depth c f fs res ran) (hc : p.consistent.holds c) :
    p.consistent.holds ran.2 := by
  obtain ⟨hdims, hreaders, -⟩ := hconcludes.settled
  intro hcaching m l v path hrecall r hdesc hnum height w u hw
  have hdesc' : r.Describes p c (some m) :=
    hdesc.of_readers (by rw [hreaders]; exact fun _ _ => id)
  rw [hdims] at hnum ⊢
  rcases hconcludes.recalled hrecall with hold | ⟨-, hprovisional, rfl, -, rfl, hpath, hstored⟩
  · exact hc hcaching m l v path hold r hdesc' hnum height w u hw
  · obtain rfl := hL hcaching
    let i : Vantage := ⟨r, height, (· ∈ f.reads), k, l, some m⟩
    have hagree : Likeness.equality.Agree i.scope k l := hpath.mono hstored
    have hguided : Guided i (s.enter m k) u.keys ((.ok v, c) : Except Fault Value × Machine) :=
      ⟨.inl hnum, .inr ⟨⟨v, rfl⟩, f, fs, h.frames, fun d hd => hd⟩⟩
    rcases h.settles hops hL (i := i) rfl hagree hdesc' hw hguided with
      ⟨height', -, hsame, haccord⟩ | ⟨-, hescapes⟩
    · cases haccord with
      | looped hless => exact absurd hsame (Nat.ne_of_gt hless)
      | ok _ hlike hheeds htracks _ =>
        refine ⟨BEq.symm hlike, fun d hd => ?_, htracks.knows⟩
        exact hstored d ((hheeds f fs h.frames).1 d hd)
    · rw [(hescapes hcaching).1] at hprovisional
      cases hprovisional

/-! ## From the answer to the name -/

/-- A run for a name accords with the meanings of the name from every vantage. -/
def RunFollows (p : Program) (L : Likeness) (room : Nat) (n : String) (k : Context) (s : Machine)
    (ran : Except Fault Value × Machine) : Prop :=
  ∀ i : Vantage, i.here = k → L.Agree i.scope k i.there → i.reference.Describes p ran.2 (some n) →
    ∀ b t, i.reference.value i.height n i.there = some (b, t) → Guided i s t.keys ran →
      Accord p L room i L.same s b t ran

/-- Asking has changed nothing that a comparison looks at. -/
theorem Accord.of_asking
    (h : Accord p L room i L.same (s.asking n).countMiss b t ran) :
    Accord p L room i L.same s b t ran := by
  have hdims : (s.asking n).countMiss.dims = s.dims := s.asking_dims n
  have hmemo : (s.asking n).countMiss.memo = s.memo := s.asking_memo n
  have hframes : (s.asking n).countMiss.frames = s.frames := s.asking_frames n
  have hloops : (s.asking n).countMiss.stats.loops = s.stats.loops := s.asking_loops n
  cases h with
  | ok hsame hlike hheeds htracks hfresh =>
    refine .ok (hsame.trans hloops) hlike (fun g gs hgs => ?_) (hdims ▸ htracks) fun m l hm => ?_
    · have := hheeds g gs hgs
      rwa [hframes] at this
    · have := hfresh m l hm
      rwa [hmemo] at this
  | error hsame hkey hroom =>
    rw [hdims] at hroom
    exact .error (hsame.trans hloops) hkey hroom
  | looped hless hescapes =>
    refine .looped (hloops ▸ hless) fun hcaching => ?_
    have := hescapes hcaching
    rwa [Escapes, hmemo] at this

theorem follows_undefined (hg : p.group? n = none) :
    RunFollows p L room n k s (.ok (.special .undef), s.asking n) := by
  intro i _ _ hdesc b t hb _
  rw [Reference.value_of_none (hdesc.group.trans hg)] at hb
  cases hb
  refine .ok (s.asking_loops n) (L.refl _) (fun g gs hgs => ?_) ?_ (.of_tries ?_)
  · rw [asking_frames] at hgs
    refine ⟨fun d hd => (List.not_mem_nil hd).elim, fun _ f fs hf d hd => .inl ?_⟩
    cases hf.symm.trans hgs
    exact hd
  · rw [asking_dims]
    exact .nil _
  · rw [asking_memo]

/-- A remembered value is like the meaning, by the consistency of the memo. -/
theorem follows_known (hL : p.config.caching = true → L = .equality)
    (hs : p.consistent.holds s) (hcaching : p.config.caching = true) {v : Value}
    {path : List Dim} (hv : s.memo.known? n k = some (v, path)) :
    RunFollows p L room n k s (.ok v, (s.asking n).countHit.noteReads (.ofList path)) := by
  intro i hhere hagree hdesc b t hb hguided
  obtain rfl := hL hcaching
  generalize hs' : (s.asking n).countHit.noteReads (.ofList path) = s' at hdesc hguided ⊢
  have hgrows : s.Grows s' := by
    rw [← hs']
    have hhit : (s.asking n).Grows (s.asking n).countHit := .of_stats (Nat.le_refl _)
    exact ((s.grows_asking n).trans hhit).trans (grows_noteReads _ _)
  have hdims : s'.dims = s.dims := by
    rw [← hs', noteReads_dims]
    exact s.asking_dims n
  have htop : ∀ g gs, s'.frames = g :: gs → ∀ d ∈ path, d ∈ g.reads := by
    intro g gs hgs d hd
    rw [← hs', noteReads_frames] at hgs
    split at hgs
    · cases hgs
    · cases hgs
      exact IndexSet.mem_union.mpr (.inl (IndexSet.mem_ofList.mpr hd))
  have hscope : ∀ d ∈ path, i.scope d := by
    rcases hguided.covered with hall | ⟨-, g, gs, hgs, hA⟩
    · exact fun d _ => hall d
    · exact fun d hd => hA d (htop g gs hgs d hd)
  obtain ⟨hlike, hreads, hkeys⟩ := hs hcaching n i.there v path
    (Memo.known?_agree hv (hagree.mono hscope)) i.reference (hdesc.of_grows hgrows)
    (hguided.start hgrows) i.height b t hb
  have htracks : Tracks .equality s.dims t.keys s'.dims := by
    rw [hdims]
    exact .of_knows hkeys
  refine .ok ?_ (BEq.symm hlike) (fun g gs hgs => ⟨fun d hd => htop g gs hgs d (hreads d hd), ?_⟩)
    htracks (.of_tries ?_)
  · rw [← hs', noteReads_stats]
    exact s.asking_loops n
  · intro hoff
    rw [hcaching] at hoff
    cases hoff
  · rw [← hs', noteReads_memo]
    exact congrArg Memo.tries (s.asking_memo n)

/-- A cycle gets out: it leads to the pending evaluation of the name itself. -/
theorem follows_pending (hpending : s.memo.isPending n k = true) :
    RunFollows p L room n k s
      (.ok (.special .loop), ((s.asking n).looping n k).noteReads k.dims) := by
  intro i hhere hagree hdesc b t hb hguided
  generalize hs' : ((s.asking n).looping n k).noteReads k.dims = s' at hdesc hguided ⊢
  have hless : s.stats.loops < s'.stats.loops := by
    rw [← hs', noteReads_stats, ← s.asking_loops n]
    exact Nat.lt_succ_self _
  refine .looped hless fun _ => ⟨n, k, i.there, i.height, hpending, Nat.le_refl _,
    Option.isSome_iff_exists.mpr ⟨_, hb⟩, fun d hd => ?_, fun d hd => ⟨hhere ▸ hd, rfl⟩, ?_⟩
  · have hscope : i.scope d := by
      rcases hguided.covered with hall | ⟨-, g, gs, hgs, hA⟩
      · exact hall d
      · rw [← hs', noteReads_frames] at hgs
        split at hgs
        · cases hgs
        · cases hgs
          exact hA d (IndexSet.mem_union.mpr (.inl (Context.mem_dims.mpr hd)))
    exact Likeness.rel_equality (hagree d hscope)
  · rw [← hs']
    exact (marked_markProvisional n k (s.asking n).frames).of_grows (grows_noteReads _ _).frames

/-! ## All names -/

/-- A name that is asked for follows its meaning and keeps the memo consistent, if it does so
where it is evaluated. -/
theorem ask_follows (hL : p.config.caching = true → L = .equality)
    {evaluate : Group → EvalM Value}
    (hgrows : ∀ s : Machine, (s.asking n).Grows (p.ask n k evaluate s).2)
    (hevaluate : ∀ g s, p.group? n = some g →
      (p.config.caching = true → s.memo.known? n k = none) → p.consistent.holds s →
        p.consistent.holds (evaluate g s).2 ∧ RunFollows p L room n k s (evaluate g s))
    (s : Machine) (hs : p.consistent.holds s) :
    p.consistent.holds (p.ask n k evaluate s).2 ∧
      RunFollows p L room n k s (p.ask n k evaluate s) := by
  have hgrows := (s.grows_asking n).trans (hgrows s)
  have hholds : (p.ask n k evaluate s).2.memo = s.memo →
      p.consistent.holds (p.ask n k evaluate s).2 := fun hmemo =>
    p.consistent.steady hs (congrArg Memo.tries hmemo) hgrows.dims hgrows.readers
  rcases p.ask_cases n k evaluate s with ⟨hg, hask⟩ | ⟨g, hg, ⟨v, path, hcaching, hv, hask⟩ |
    ⟨hpending, hask⟩ | ⟨hpending, hmiss, hask⟩⟩ <;> rw [hask] at hholds ⊢
  · exact ⟨hholds (s.asking_memo n), follows_undefined hg⟩
  · refine ⟨hholds ?_, follows_known hL hs hcaching hv⟩
    exact (noteReads_memo _ _).trans (s.asking_memo n)
  · refine ⟨hholds ?_, follows_pending hpending⟩
    exact (noteReads_memo _ _).trans (s.asking_memo n)
  · have hmissing : (s.asking n).Grows (s.asking n).countMiss := .of_stats (Nat.le_refl _)
    have hstart := (s.grows_asking n).trans hmissing
    have hmemo : (s.asking n).countMiss.memo = s.memo := s.asking_memo n
    obtain ⟨hafter, hfollows⟩ := hevaluate g (s.asking n).countMiss hg (hmemo ▸ hmiss)
      (p.consistent.steady hs (congrArg Memo.tries hmemo) hstart.dims hstart.readers)
    refine ⟨hafter, fun i hhere hagree hdesc b t hb hguided => Accord.of_asking (n := n) ?_⟩
    refine hfollows i hhere hagree hdesc b t hb ⟨?_, hguided.covered⟩
    have hdims : (s.asking n).countMiss.dims = s.dims := s.asking_dims n
    rw [hdims]
    exact hguided.numbered

/-- What is known of the evaluations of all names with some room. -/
def NamesFollow (p : Program) (L : Likeness) (room : Nat) : Prop :=
  ∀ (n : String) (k : Context) (s : Machine), p.consistent.holds s →
    p.consistent.holds (p.demand room n k s).2 ∧
      RunFollows p L room n k s (p.demand room n k s)

/-- The evaluation of a name, as a step that keeps the memo consistent. -/
def NamesFollow.call (h : NamesFollow p L room) (n : String) (k : Context) :
    Kept p.consistent Value :=
  ⟨p.demand room n k, fun s =>
    ⟨(s.grows_asking n).trans (p.names_grow room n k s), fun hs => (h n k s hs).1⟩⟩

theorem NamesFollow.body_val (h : NamesFollow p L room) (g : Group) (k : Context) :
    (g.interpret (Code.interpret p.vocabulary.operators h.call) k).val =
      g.value (Code.eval p.vocabulary.operators (p.demand room)) k := Kept.group_val g k

theorem NamesFollow.keeps_body (h : NamesFollow p L room) (g : Group) (k : Context) :
    EvalM.Keeps p.consistent (g.value (Code.eval p.vocabulary.operators (p.demand room)) k) :=
  h.body_val g k ▸ (g.interpret (Code.interpret p.vocabulary.operators h.call) k).property

theorem NamesFollow.call_follows (h : NamesFollow p L room) {n : String} (hhere : i.here = k)
    (hagree : L.Agree i.scope k i.there) :
    Follows p L room i L.same (p.demand room n k) (Meaning.call n i.there) := by
  intro s hs hreader hdesc b t hb hguided
  have hleads : ∀ q ∈ i.reader, (p.demand room n k s).2.Leads n q := fun q hq =>
    (p.names_grow room n k s).leads (leads_asking (hreader.trans hq) n)
  exact (h n k s hs).2 i hhere hagree (hdesc.of_leads hleads) b t hb hguided

theorem NamesFollow.code_val (h : NamesFollow p L room) (c : Code) (k : Context) :
    (c.interpret p.vocabulary.operators h.call k).val =
      c.eval p.vocabulary.operators (p.demand room) k := Kept.code_val c k

theorem NamesFollow.keeps_code (h : NamesFollow p L room) (c : Code) (k : Context) :
    EvalM.Keeps p.consistent (c.eval p.vocabulary.operators (p.demand room) k) :=
  h.code_val c k ▸ (c.interpret p.vocabulary.operators h.call k).property

theorem NamesFollow.call_rel (h : NamesFollow p L room) (i : Vantage) (n : String)
    (k l : Context) (hkl : (following p L room).contexts i k l) :
    (following p L room).rel i L.same (h.call n k) (Meaning.call n l) := by
  obtain ⟨hhere, rfl, hagree⟩ := hkl
  exact h.call_follows hhere hagree

theorem NamesFollow.code_follows (h : NamesFollow p L room)
    (hops : L.Keeps p.vocabulary.operators) (c : Code) (hhere : i.here = k)
    (hagree : L.Agree i.scope k i.there) :
    Follows p L room i L.same (c.eval p.vocabulary.operators (p.demand room) k)
      (c.interpret p.vocabulary.operators Meaning.call i.there) := by
  rw [← h.code_val c k]
  exact (following p L room).code hops h.call_rel c ⟨hhere, rfl, hagree⟩

theorem NamesFollow.body_follows (h : NamesFollow p L room)
    (hops : L.Keeps p.vocabulary.operators) (g : Group) (hhere : i.here = k)
    (hagree : L.Agree i.scope k i.there)
    (hoperators : i.reference.operators = p.vocabulary.operators) :
    Follows p L room i L.same (g.value (Code.eval p.vocabulary.operators (p.demand room)) k)
      (i.reference.body g i.there) := by
  rw [Reference.body, hoperators, ← h.body_val g k]
  exact (following p L room).group hops h.call_rel g ⟨hhere, rfl, hagree⟩

/-- The run of a body, once all names are known to follow their meanings. -/
theorem evaluates_of_follows {body : EvalM Value} (hg : p.group? n = some g)
    (hs : p.consistent.holds s) (hgrows : (s.enter n k).Grows c) (hframes : c.frames = f :: fs)
    (hrun : body (s.enter n k) = (res, c))
    (hfollows : ∀ i : Vantage, i.here = k → L.Agree i.scope k i.there →
      i.reference.operators = p.vocabulary.operators →
        Follows p L room i L.same body (i.reference.body g i.there)) :
    Evaluates p L room n g k s res c f fs := by
  refine ⟨hg, hgrows, hframes, fun i hreader hhere hagree hdesc b t hb hguided => ?_⟩
  have h := hfollows i hhere hagree hdesc.operators (s.enter n k)
    (p.consistent.steady hs rfl (.refl _) fun _ _ => id) hreader.symm
  rw [hrun, hreader] at h
  exact h hdesc b t hb hguided

/-- Every evaluation of a name keeps the memo consistent, and follows the meanings of the name. -/
theorem names_follow (hops : L.Keeps p.vocabulary.operators)
    (hL : p.config.caching = true → L = .equality) : ∀ room : Nat, NamesFollow p L room
  | 0, n, k, s => by
      refine ask_follows hL (names_grow p 0 n k) (fun g s hg _ hs => ⟨hs, ?_⟩) s
      intro i _ _ hdesc b t hb _
      refine .error rfl (fun n dims h => by cases h) fun ⟨hle, _⟩ => ?_
      have hgroup : i.reference.group? n = some g := hdesc.group.trans hg
      rw [Nat.le_zero.mp hle, Reference.value_zero hgroup] at hb
      cases hb
  | room + 1, n, k, s => by
      have ih := names_follow hops hL room
      refine ask_follows hL (names_grow p (room + 1) n k) (fun g s hg hmiss hs => ?_) s
      have hkeeps := ih.keeps_body g k
      have hfollows := fun (i : Vantage) (hhere : i.here = k)
        (hagree : L.Agree i.scope k i.there) => ih.body_follows hops g hhere hagree
      generalize g.value (Code.eval p.vocabulary.operators (p.demand room)) k = body
        at hkeeps hfollows ⊢
      obtain ⟨hgrows, hholds⟩ := hkeeps (s.enter n k)
      rcases hrun : body (s.enter n k) with ⟨res, c⟩
      rw [hrun] at hgrows hholds
      obtain ⟨f, fs, hframes, -⟩ := hgrows.innermost rfl
      have hconcludes := compute_concludes (p := p) hrun hframes
      have heval := evaluates_of_follows hg hs hgrows hframes hrun hfollows
      have henter : p.consistent.holds (s.enter n k) :=
        p.consistent.steady hs rfl (.refl _) fun _ _ => id
      refine ⟨heval.consistent hops hL hconcludes (hholds henter), ?_⟩
      intro i hhere hagree hdesc b t hb hguided
      exact heval.concludes hops hL hconcludes hmiss hhere hagree hdesc hb hguided

end Program

end Intensional
