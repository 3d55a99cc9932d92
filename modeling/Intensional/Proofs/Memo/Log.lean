import Intensional.Proofs.Memo.Shape

/-!
# A memo is a log of stores

A memo is worked on by some operations (`Memo.Op`): values are stored, evaluations start and
finish, the values of a name are forgotten, or everything is dropped. The log of a run of
operations has the stores that succeeded and were not forgotten since, the latest first, each with
the way on which its value was left (`Memo.Log`).

Every question to the memo is a question to the log (`Memo.implements_log`). What is known of a
name at a context is the value of the latest entry that answers there: the entry's own context
agrees on its way. Two entries whose leaves are equal, the way and the values on it, share a leaf
of the trie, so that the number of values is that of the different leaves in the log.

`Memo.Logged` is the invariant. The ways of the contexts that find nothing belong to it, because a
new value prolongs them.
-/

namespace Intensional

open Likeness

/-! ## Counting up to an equality -/

section Distinct

variable {α : Type} [BEq α] [EquivBEq α]

/-- Without the elements equal to `a` there is one element less, if there were any. -/
theorem length_eraseDups_filter (a : α) (xs : List α) :
    (xs.filter fun x => !x == a).eraseDups.length + (if xs.any (· == a) then 1 else 0) =
      xs.eraseDups.length := by
  match xs with
  | [] => rfl
  | b :: bs =>
    have hshorter : (bs.filter fun x => !x == b).length < bs.length + 1 :=
      Nat.lt_succ_of_le (List.length_filter_le _ _)
    rw [List.filter_cons, List.any_cons, List.eraseDups_cons, List.length_cons]
    cases hba : b == a with
    | true =>
      have hsame : (fun x : α => !x == b) = fun x => !x == a := by
        funext x
        rw [BEq.congr_right hba]
      simp [hsame]
    | false =>
      have hany : (bs.filter fun x => !x == b).any (· == a) = bs.any (· == a) := by
        rw [List.any_filter]
        refine congrArg bs.any (funext fun x => ?_)
        cases hxa : x == a with
        | false => rw [Bool.and_false]
        | true =>
          have hxb : (x == b) = false := by
            refine Bool.eq_false_iff.mpr fun hxb => ?_
            rw [BEq.trans (BEq.symm hxb) hxa] at hba
            cases hba
          rw [hxb]
          rfl
      have ih := length_eraseDups_filter a (bs.filter fun x => !x == b)
      rw [hany, List.filter_filter] at ih
      rw [Bool.not_false, if_pos rfl, List.eraseDups_cons, List.length_cons, Bool.false_or,
        List.filter_filter, ← ih]
      simp only [Bool.and_comm]
      omega
termination_by xs.length

theorem length_eraseDups_cons (a : α) (xs : List α) :
    (a :: xs).eraseDups.length = xs.eraseDups.length + if xs.any (· == a) then 0 else 1 := by
  rw [List.eraseDups_cons, List.length_cons, ← length_eraseDups_filter a xs]
  split <;> rfl

omit [EquivBEq α] in
theorem eraseDups_eq_nil_iff {xs : List α} : xs.eraseDups = [] ↔ xs = [] := by
  cases xs with
  | nil => simp
  | cons a xs => simp [List.eraseDups_cons]

end Distinct

namespace Memo

/-! ## Operations -/

/-- What is done to a memo. -/
inductive Op where
  /-- A value is stored under some dimensions, in any order and with repeats. -/
  | store (name : String) (k : Context) (dims : List Dim) (v : Value)
  | start (name : String) (k : Context)
  | finish (name : String) (k : Context)
  | forget (name : String)
  | clear

/-- A store that fails leaves the memo as it is. -/
def apply (m : Memo) : Op → Memo
  | .store name k dims v => (m.store name k (.ofList dims) v).toOption.getD m
  | .start name k => m.start name k
  | .finish name k => m.finish name k
  | .forget name => m.forget name
  | .clear => empty

def applyAll (m : Memo) : List Op → Memo
  | [] => m
  | op :: ops => (m.apply op).applyAll ops

/-- The dimensions that are looked at for a name at a context, pending or not. -/
def way (m : Memo) (name : String) (k : Context) : List Dim :=
  ((m.tries.get? name).map (·.way k)).getD []

/-! ## The log -/

/-- A store that has succeeded. -/
structure Entry where
  name : String
  context : Context
  /-- What the value was stored under. -/
  dims : List Dim
  /-- What is looked at to find it. -/
  path : List Dim
  value : Value

namespace Entry

/-- The way to the value, with what the context has there. -/
def leaf (e : Entry) : List (Dim × Option Value) := e.path.map fun d => (d, e.context.get? d)

/-- The entry is about this name, and its context agrees with `l` on its way. -/
def answers (e : Entry) (name : String) (l : Context) : Bool :=
  e.name == name && e.path.all fun d => e.context.get? d == l.get? d

end Entry

/-- The stores whose values are not forgotten, and the evaluations that are pending, both the
latest first. -/
structure Log where
  entries : List Entry
  marks : List (String × Context)

namespace Log

def empty : Log := ⟨[], []⟩

/-- Write down an operation on the memo `m`. -/
def note (log : Log) (m : Memo) : Op → Log
  | .store name k dims v =>
    match m.store name k (.ofList dims) v with
    | .ok m' => { log with entries := ⟨name, k, dims, m'.way name k, v⟩ :: log.entries }
    | .error _ => log
  | .start name k => { log with marks := (name, k) :: log.marks }
  | .finish name k => { log with marks := log.marks.filter fun o => !(o == (name, k)) }
  | .forget name => { log with entries := log.entries.filter fun e => e.name != name }
  | .clear => empty

def noteAll (log : Log) (m : Memo) : List Op → Log
  | [] => log
  | op :: ops => (log.note m op).noteAll (m.apply op) ops

/-- The latest entry that answers for a name at a context. -/
def latest? (log : Log) (name : String) (k : Context) : Option Entry :=
  log.entries.find? (·.answers name k)

/-- The leaves on which the entries of a name have left their values, repeats included. -/
def leaves (log : Log) (name : String) : List (List (Dim × Option Value)) :=
  (log.entries.filter fun e => e.name == name).map Entry.leaf

end Log

variable {m m' : Memo} {n n' : String} {k l : Context} {v w : Value} {p : List Dim}
  {dims : IndexSet} {log : Log} {e f : Entry}

theorem Entry.answers_iff :
    e.answers n l = true ↔ e.name = n ∧ equality.Agree (· ∈ e.path) e.context l := by
  rw [Entry.answers, Bool.and_eq_true, beq_iff_eq, List.all_eq_true]
  exact and_congr_right' (forall₂_congr fun _ _ => equality_rel.symm)

theorem Entry.leaf_beq :
    (e.leaf == f.leaf) = true ↔
      e.path = f.path ∧ equality.Agree (· ∈ e.path) e.context f.context := by
  have go : ∀ p q : List Dim,
      ((p.map fun d => (d, e.context.get? d)) == q.map fun d => (d, f.context.get? d)) = true ↔
        p = q ∧ equality.Agree (· ∈ p) e.context f.context := by
    intro p
    induction p with
    | nil =>
      intro q
      cases q with
      | nil => exact ⟨fun _ => ⟨rfl, fun d hd => (List.not_mem_nil hd).elim⟩, fun _ => rfl⟩
      | cons d q => exact ⟨nofun, fun h => nomatch h.1⟩
    | cons d p ih =>
      intro q
      cases q with
      | nil => exact ⟨nofun, fun h => nomatch h.1⟩
      | cons d' q =>
        rw [List.map_cons, List.map_cons, List.cons_beq_cons, beq_pair, Bool.and_eq_true,
          Bool.and_eq_true, beq_iff_eq, ih, List.cons_eq_cons]
        constructor
        · rintro ⟨⟨rfl, hd⟩, rfl, hagree⟩
          refine ⟨⟨rfl, rfl⟩, fun x hx => ?_⟩
          rcases List.mem_cons.mp hx with rfl | hx
          · exact equality_rel.mpr hd
          · exact hagree x hx
        · rintro ⟨⟨rfl, rfl⟩, hagree⟩
          exact ⟨⟨rfl, equality_rel.mp (hagree d (List.mem_cons_self ..))⟩, rfl,
            hagree.mono fun x hx => List.mem_cons_of_mem _ hx⟩
  exact go e.path f.path

/-! ## What a store does -/

theorem way_of_known? (h : m.known? n k = some (v, p)) : m.way n k = p := by
  obtain ⟨t, ht, hv⟩ := Option.bind_eq_some_iff.mp h
  rw [way, ht]
  exact Trie.way_of_known? hv

theorem way_store (hm : ∀ n l, (m.way n l).Nodup) (h : m.store n k dims v = .ok m')
    (n' : String) (l : Context) : (m'.way n' l).Nodup := by
  obtain ⟨t', rfl, ht'⟩ := store_eq_ok h
  rw [way, Assoc.get?_put]
  split
  · rcases ht' with ⟨-, rfl⟩ | ⟨t, ht, hstore⟩
    · exact Trie.nodup_way_path k v dims l
    · refine Trie.nodup_way_store (fun l => ?_) hstore l
      have hway := hm n l
      rwa [way, ht] at hway
  · exact hm n' l

/-- The way to a new value has all the dimensions that it was stored under. -/
theorem mem_way_store (h : m.store n k dims v = .ok m') {d : Dim} (hd : d ∈ dims) :
    d ∈ m'.way n k := by
  obtain ⟨p, hp⟩ := known?_store_self h
  rw [way_of_known? hp]
  obtain ⟨t', rfl, ht'⟩ := store_eq_ok h
  rw [known?_put, if_pos rfl] at hp
  rcases ht' with ⟨-, rfl⟩ | ⟨t, -, hstore⟩
  · obtain ⟨-, rfl, -⟩ := Trie.known?_path hp
    exact hd
  · exact Trie.mem_way_store hstore hp hd

theorem known?_store_again (h : m.store n k dims v = .ok m')
    (hk : m.known? n k = some (w, p)) : m'.known? n k = some (v, p) := by
  obtain ⟨t', rfl, ht'⟩ := store_eq_ok h
  obtain ⟨t₀, ht₀, hw⟩ := Option.bind_eq_some_iff.mp hk
  rw [known?_put, if_pos rfl]
  rcases ht' with ⟨hnone, -⟩ | ⟨t, ht, hstore⟩
  · cases hnone.symm.trans ht₀
  · cases ht₀.symm.trans ht
    exact Trie.known?_store_again hstore hw

/-- A store changes nothing for the contexts that part with its own on the way to its value. -/
theorem known?_store_apart (h : m.store n k dims v = .ok m')
    (hapart : n = n' → ¬ equality.Agree (· ∈ m'.way n k) k l) :
    m'.known? n' l = m.known? n' l := by
  cases hl' : m'.known? n' l with
  | some found =>
    obtain ⟨w, p⟩ := found
    rcases known?_store h hl' with hold | ⟨rfl, rfl, hagree, -⟩
    · exact hold.symm
    · have hk := known?_agree hl' fun d hd => equality_symm (hagree d hd)
      rw [way_of_known? hk] at hapart
      exact absurd hagree (hapart rfl)
  | none =>
    cases hl : m.known? n' l with
    | none => rfl
    | some found =>
      obtain ⟨w, p⟩ := found
      have hlost : n = n' ∧ equality.Agree (· ∈ p) k l := by
        by_contra hother
        cases hl'.symm.trans (known?_store_other h hl (not_and.mp hother))
      obtain ⟨rfl, hagree⟩ := hlost
      have hk := known?_agree hl fun d hd => equality_symm (hagree d hd)
      rw [way_of_known? (known?_store_again h hk)] at hapart
      exact absurd hagree (hapart rfl)

theorem count_store (h : m.store n k dims v = .ok m') (n' : String) :
    m'.count n' =
      m.count n' + if n = n' then (if (m.known? n k).isSome then 0 else 1) else 0 := by
  obtain ⟨t', rfl, ht'⟩ := store_eq_ok h
  rw [count, count, Assoc.get?_put]
  simp only [beq_iff_eq]
  split
  · rename_i hn
    subst hn
    rcases ht' with ⟨hnone, rfl⟩ | ⟨t, ht, hstore⟩
    · rw [known?, hnone]
      exact Trie.count_path k v dims.toList
    · rw [known?, ht]
      exact Trie.count_store hstore
  · rfl

/-! ## The invariant -/

/-- The log tells all that there is in the memo. -/
structure Logged (m : Memo) (log : Log) : Prop where
  known (n : String) (l : Context) :
    m.known? n l = (log.latest? n l).map fun e => (e.value, e.path)
  way (n : String) (l : Context) : (m.way n l).Nodup
  entry (e : Entry) : e ∈ log.entries → e.path.Nodup ∧ ∀ d ∈ e.dims, d ∈ e.path
  holds (n : String) : m.holds n = log.entries.any fun e => e.name == n
  count (n : String) : m.count n = (log.leaves n).eraseDups.length
  pending (n : String) (l : Context) : m.isPending n l = log.marks.any (· == (n, l))

theorem logged_empty : empty.Logged .empty :=
  ⟨fun _ _ => rfl, fun _ _ => .nil, fun _ he => (List.not_mem_nil he).elim, fun _ => rfl,
    fun _ => rfl, fun _ _ => rfl⟩

namespace Logged

/-- Its leaf is in the log exactly if the context of a store has had a value before. -/
theorem any_leaf (hm : m.Logged log) (h : m.store n k dims v = .ok m') {ds : List Dim} :
    (log.leaves n).any (· == (⟨n, k, ds, m'.way n k, v⟩ : Entry).leaf) =
      (m.known? n k).isSome := by
  rw [Bool.eq_iff_iff, List.any_eq_true, hm.known, Option.isSome_map, Log.latest?,
    List.find?_isSome]
  constructor
  · rintro ⟨leaf, hleaf, hbeq⟩
    obtain ⟨e, he, rfl⟩ := List.mem_map.mp hleaf
    obtain ⟨he, hn⟩ := List.mem_filter.mp he
    exact ⟨e, he, Entry.answers_iff.mpr ⟨beq_iff_eq.mp hn, (Entry.leaf_beq.mp hbeq).2⟩⟩
  · intro hsome
    obtain ⟨e, he⟩ := Option.isSome_iff_exists.mp (List.find?_isSome.mpr hsome)
    have hanswers : e.answers n k = true := List.find?_some (p := fun e : Entry => e.answers n k) he
    obtain ⟨hn, hagree⟩ := Entry.answers_iff.mp hanswers
    have hknown : m.known? n k = some (e.value, e.path) := by
      rw [hm.known, Log.latest?, he, Option.map_some]
    have hway : m'.way n k = e.path := way_of_known? (known?_store_again h hknown)
    exact ⟨e.leaf, List.mem_map_of_mem
      (List.mem_filter.mpr ⟨List.mem_of_find?_eq_some he, beq_iff_eq.mpr hn⟩),
      Entry.leaf_beq.mpr ⟨hway.symm, hagree⟩⟩

theorem store (hm : m.Logged log) {ds : List Dim} (h : m.store n k (.ofList ds) v = .ok m') :
    m'.Logged { log with entries := ⟨n, k, ds, m'.way n k, v⟩ :: log.entries } where
  known n' l := by
    rw [Log.latest?, List.find?_cons]
    split
    · rename_i hanswers
      obtain ⟨rfl, hagree⟩ := Entry.answers_iff.mp hanswers
      obtain ⟨p, hp⟩ := known?_store_self h
      obtain rfl : m'.way n k = p := way_of_known? hp
      exact known?_agree hp hagree
    · rename_i hanswers
      rw [known?_store_apart h fun hn hagree =>
        Bool.false_ne_true (hanswers.symm.trans (Entry.answers_iff.mpr ⟨hn, hagree⟩))]
      exact hm.known n' l
  way := way_store hm.way h
  entry e he := by
    rcases List.mem_cons.mp he with rfl | he
    · exact ⟨way_store hm.way h n k, fun d hd => mem_way_store h (IndexSet.mem_ofList.mpr hd)⟩
    · exact hm.entry e he
  holds n' := by
    obtain ⟨t', rfl, -⟩ := store_eq_ok h
    have hbefore := hm.holds n'
    rw [Memo.holds, Assoc.contains] at hbefore ⊢
    rw [Assoc.get?_put, List.any_cons, ← hbefore]
    cases n == n' <;> rfl
  count n' := by
    rw [count_store h n', hm.count, Log.leaves, Log.leaves, List.filter_cons]
    by_cases hn : n = n'
    · subst hn
      rw [if_pos (BEq.refl n), List.map_cons, length_eraseDups_cons, if_pos rfl, ← hm.any_leaf h]
      rfl
    · rw [if_neg (fun h => hn (beq_iff_eq.mp h)), if_neg hn]
      rfl
  pending n' l := by
    rw [isPending, pending_store h]
    exact hm.pending n' l

theorem forget (hm : m.Logged log) (n : String) :
    (m.forget n).Logged
      { log with entries := log.entries.filter fun e => e.name != n } where
  known n' l := by
    rw [known?_forget, Log.latest?, List.find?_filter]
    by_cases hn : n = n'
    · subst hn
      rw [if_pos rfl, List.find?_eq_none.mpr, Option.map_none]
      intro e _ h
      obtain ⟨hne, hanswers⟩ := of_decide_eq_true h
      exact bne_iff_ne.mp hne (Entry.answers_iff.mp hanswers).1
    · rw [if_neg hn, hm.known, Log.latest?]
      congr 2
      funext e
      rw [Bool.eq_iff_iff, decide_eq_true_iff]
      refine ⟨fun h => ⟨bne_iff_ne.mpr fun hen => ?_, h⟩, And.right⟩
      exact hn (hen.symm.trans (Entry.answers_iff.mp h).1)
  way n' l := by
    rw [Memo.way, Memo.forget, Assoc.get?_erase]
    split
    · exact .nil
    · exact hm.way n' l
  entry e he := hm.entry e (List.mem_filter.mp he).1
  holds n' := by
    have hbefore := hm.holds n'
    rw [Memo.holds, Assoc.contains] at hbefore ⊢
    rw [Memo.forget, Assoc.get?_erase, List.any_filter]
    by_cases hn : n = n'
    · subst hn
      rw [if_pos (BEq.refl n)]
      refine (List.any_eq_false.mpr fun e _ => ?_).symm
      rw [bne, Bool.not_and_self]
      exact Bool.false_ne_true
    · rw [if_neg (fun h => hn (beq_iff_eq.mp h)), hbefore]
      refine congrArg log.entries.any (funext fun e => ?_)
      by_cases hen : e.name = n'
      · rw [hen, bne_iff_ne.mpr (Ne.symm hn), Bool.true_and]
      · rw [beq_false_of_ne hen, Bool.and_false]
  count n' := by
    rw [Log.leaves, List.filter_filter]
    have hbefore := hm.count n'
    rw [Memo.count] at hbefore ⊢
    rw [Memo.forget, Assoc.get?_erase]
    by_cases hn : n = n'
    · subst hn
      rw [if_pos (BEq.refl n), List.filter_eq_nil_iff.mpr]
      · rfl
      · intro e _
        rw [bne, Bool.and_not_self]
        exact Bool.false_ne_true
    · rw [if_neg (fun h => hn (beq_iff_eq.mp h)), hbefore, Log.leaves]
      refine congrArg (fun es => (es.map Entry.leaf).eraseDups.length)
        (List.filter_congr fun e _ => ?_)
      by_cases hen : e.name = n'
      · rw [hen, bne_iff_ne.mpr (Ne.symm hn), Bool.and_true]
      · rw [beq_false_of_ne hen, Bool.false_and]
  pending n' l := hm.pending n' l

theorem start (hm : m.Logged log) (n : String) (k : Context) :
    (m.start n k).Logged { log with marks := (n, k) :: log.marks } where
  known := hm.known
  way := hm.way
  entry := hm.entry
  holds := hm.holds
  count := hm.count
  pending n' l := by rw [isPending_start, List.any_cons, hm.pending]

theorem finish (hm : m.Logged log) (n : String) (k : Context) :
    (m.finish n k).Logged { log with marks := log.marks.filter fun o => !(o == (n, k)) } where
  known := hm.known
  way := hm.way
  entry := hm.entry
  holds := hm.holds
  count := hm.count
  pending n' l := by
    rw [isPending_finish, hm.pending, List.any_filter]
    cases hpair : (n, k) == (n', l) with
    | true =>
      refine (List.any_eq_false.mpr fun o _ => ?_).symm
      rw [BEq.congr_right hpair, Bool.not_and_self]
      exact Bool.false_ne_true
    | false =>
      refine congrArg log.marks.any (funext fun o => ?_)
      cases ho : o == (n', l) with
      | false => rw [Bool.and_false]
      | true => rw [BEq.congr_left ho, BEq.comm, hpair]; rfl

theorem apply (hm : m.Logged log) (op : Op) : (m.apply op).Logged (log.note m op) := by
  cases op with
  | store n k ds v =>
    rw [Memo.apply, Log.note]
    cases h : m.store n k (.ofList ds) v with
    | ok m' => exact hm.store h
    | error e => exact hm
  | start n k => exact hm.start n k
  | finish n k => exact hm.finish n k
  | forget n => exact hm.forget n
  | clear => exact logged_empty

theorem applyAll (hm : m.Logged log) (ops : List Op) :
    (m.applyAll ops).Logged (log.noteAll m ops) := by
  induction ops generalizing m log with
  | nil => exact hm
  | cons op ops ih => exact ih (hm.apply op)

/-- A lookup where nothing is pending answers what the log answers. -/
theorem find (hm : m.Logged log) (hpending : m.isPending n k = false) :
    match log.latest? n k with
    | some e => m.find n k = (.known e.value, e.path)
    | none => (m.find n k).1 = .unknown := by
  have hknown := hm.known n k
  rw [Memo.find, if_neg (Bool.not_eq_true _ ▸ hpending)]
  rw [known?] at hknown
  cases ht : m.tries.get? n with
  | none =>
    rw [ht, Option.bind_none] at hknown
    rw [Option.map_eq_none_iff.mp hknown.symm]
  | some t =>
    rw [ht, Option.bind_some, Trie.known?] at hknown
    simp only
    rcases hfind : t.find k with ⟨_ | v, path⟩
    · rw [hfind] at hknown
      rw [Option.map_eq_none_iff.mp hknown.symm]
    · rw [hfind] at hknown
      obtain ⟨e, he, hvalue⟩ := Option.map_eq_some_iff.mp hknown.symm
      cases hvalue
      rw [he]

end Logged

/-- After any operations a memo is the log of them. A pair is pending if it is marked. Where
nothing is pending, a lookup finds the value of the latest entry that answers, on the way of this
entry, and nothing if there is none. The way of an entry looks at no dimension twice, and at all
that the value was stored under. There are as many values of a name as different leaves in the
log, and the name has a trie exactly if there are any. -/
theorem implements_log (ops : List Op) :
    let m := empty.applyAll ops
    let log := Log.empty.noteAll empty ops
    (∀ n k, m.isPending n k = log.marks.any (· == (n, k))) ∧
    (∀ n k, m.isPending n k = false →
      match log.latest? n k with
      | some e => m.find n k = (.known e.value, e.path)
      | none => (m.find n k).1 = .unknown) ∧
    (∀ e ∈ log.entries, e.path.Nodup ∧ ∀ d ∈ e.dims, d ∈ e.path) ∧
    (∀ n, m.count n = (log.leaves n).eraseDups.length ∧
      (m.holds n = true ↔ 0 < m.count n)) := by
  have hm := logged_empty.applyAll ops
  refine ⟨hm.pending, fun n k => hm.find, hm.entry, fun n => ⟨hm.count n, ?_⟩⟩
  rw [hm.holds, hm.count, List.length_pos_iff, Ne, eraseDups_eq_nil_iff, Log.leaves,
    List.map_eq_nil_iff, List.filter_eq_nil_iff, List.any_eq_true]
  push Not
  rfl

/-- Two values of `x` part on different ways: one looks at `y`, the other does not. -/
example :
    let m := empty.applyAll [.store "f" (.ofList [(7, .int 1), (8, .int 10)]) [8, 7] (.int 10),
      .store "f" (.ofList [(7, .int 2), (8, .int 10)]) [7] (.int 0)]
    m.find "f" (.ofList [(7, .int 1), (8, .int 11)]) = (.unknown, [7, 8]) ∧
      m.find "f" (.ofList [(7, .int 2), (8, .int 11)]) = (.known (.int 0), [7]) ∧
      m.count "f" = 2 := ⟨rfl, rfl, rfl⟩

end Memo

end Intensional
