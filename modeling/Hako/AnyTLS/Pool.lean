import Hako.AnyTLS.Client

/-!
# Where the sessions of a client are

At every moment an open session has one owner: the pool, a stream that has not died, or a
goroutine that is about to open a stream on it or to put it back. Ownership is passed on by every
operation but two. A stream that dies before its hook is installed takes the session with it, and
a hook that inserts a session after it was closed brings it back into the pool.
-/

namespace Hako.AnyTLS.Client

open Threads List Option Multiset Nat List.Subset Client.Stream

/-! ### Owners -/

/-- The operation owns session `s`: its goroutine will open a stream on it or put it back. -/
def Op.holds (s : Nat) : Op → Bool
  | openStream t | newStream t | writeSYN t _ | addStream t _ => t = s
  | dieHook t | selectDie t | insertIdle t => t = s
  | _ => false

/-- The operation closes session `s`. -/
def Op.closes (s : Nat) : Op → Bool
  | close t => t = s
  | _ => false

namespace State

/-- The number of streams of session `s` that have not died. -/
def live (st : State) (s : Nat) : Nat := st.streams.countP fun x => x.sess = s ∧ x.died = false

/-- How often session `s` is in the pool or has a stream that has not died. -/
def owners (st : State) (s : Nat) : Nat := st.idleSession.count s + st.live s

theorem live_eq (st : State) (s : Nat) :
    st.live s = (st.streams.map fun x => (x.sess, x.died)).countP (· = (s, false)) := by
  rw [live, List.countP_map]
  congr 1
  funext x
  simp

theorem hasLiveStream_iff (st : State) (s : Nat) : st.HasLiveStream s ↔ 0 < st.live s := by
  simp [HasLiveStream, live, countP_pos_iff]

/-! ### Sessions by their number -/

theorem isClosed_eq (st : State) (s : Nat) :
    st.isClosed s = ((st.heap.map Session.die)[s]?).getD true := by
  rw [isClosed, getElem?_map]
  cases st.heap[s]? <;> rfl

theorem streamsOf_eq (st : State) (s : Nat) :
    st.streamsOf s = ((st.heap.map Session.streams)[s]?).getD [] := by
  rw [streamsOf, getElem?_map]
  cases st.heap[s]? <;> rfl

theorem Open.lt {st : State} {s : Nat} (h : st.Open s) : s < st.heap.length := by
  by_contra hs
  rw [Open, isClosed, getElem?_eq_none (by omega)] at h
  cases h

theorem map_modify {γ β : Type} {xs : List γ} {s : Nat} {f : γ → γ} {g : γ → β}
    (h : ∀ x, g (f x) = g x) : (xs.modify s f).map g = xs.map g := by
  apply ext_getElem?
  intro i
  rw [getElem?_map, getElem?_map, getElem?_modify]
  cases xs[i]? with
  | none => rfl
  | some x =>
    split
    · exact congrArg some (h x)
    · rfl

theorem cleanupLoop_map {β : Type} {cfg : Config} {expTime now : Int} {pool : List Nat}
    {activeCount : Nat} {heap : List Session} {g : Session → β}
    (h : ∀ x : Session, g { x with idleSince := now } = g x) :
    (cleanupLoop cfg expTime now pool activeCount heap).1.map g = heap.map g := by
  fun_induction cleanupLoop cfg expTime now pool activeCount heap with
  | case1 => rfl
  | case2 _ _ _ _ _ heap' keep toClose hloop ih | case4 _ _ _ _ _ _ heap' keep toClose hloop ih =>
    simpa [hloop] using ih
  | case3 _ _ _ _ _ _ heap' keep toClose hloop ih =>
    rw [hloop, map_modify h] at ih
    exact ih

/-- Every session of the pool is kept or closed. -/
theorem cleanupLoop_count (cfg : Config) (expTime now : Int) (pool : List Nat) (activeCount : Nat)
    (heap : List Session) (s : Nat) :
    (cleanupLoop cfg expTime now pool activeCount heap).2.1.count s +
      (cleanupLoop cfg expTime now pool activeCount heap).2.2.count s = pool.count s := by
  fun_induction cleanupLoop cfg expTime now pool activeCount heap with
  | case1 => rfl
  | case2 _ _ _ _ _ heap' keep toClose hloop ih | case3 _ _ _ _ _ _ heap' keep toClose hloop ih
  | case4 _ _ _ _ _ _ heap' keep toClose hloop ih =>
    rw [hloop] at ih
    simp only [List.count_cons] at ih ⊢
    omega

end State

variable {r s : Nat} {cfg : Config} {st st' : State} {op : Op} {ops : List Op} {m : Multiset Op}

theorem toNat_decide (p : Prop) [Decidable p] : (decide p).toNat = if p then 1 else 0 := by
  by_cases h : p <;> simp [h]

/-! ### What operations pass on -/

/-- What an operation does to the owners of the sessions, if it creates none. -/
structure Moves (cfg : Config) (st : State) (op : Op) (st' : State) (ops : List Op) : Prop where
  length : st'.heap.length = st.heap.length
  wasOpen : ∀ {s}, st'.Open s → st.Open s
  le : ∀ s, st'.owners s + ops.countP (Op.holds s) ≤ st.owners s + (op.holds s).toNat
  ge : ∀ {s}, st'.Open s → st.owners s + (op.holds s).toNat + (op.closes s).toNat ≤
    st'.owners s + ops.countP (Op.holds s) + ops.countP (Op.closes s)
  pool : ∀ s ∈ st'.idleSession, st'.Open s ∨ .removeIdle s ∈ ops ∨
    s ∈ st.idleSession ∧ ¬st.Open s ∧ op ≠ .removeIdle s
  closing : ∀ s, .removeIdle s ∈ ops ∨ .closeStreams s ∈ ops → st.Open s ∧ ¬st'.Open s
  noReuse : cfg.disableReuse = true → st.idleSession = [] →
    (∀ s, op ≠ .selectDie s ∧ op ≠ .insertIdle s) →
    st'.idleSession = [] ∧ ∀ s, .selectDie s ∉ ops ∧ .insertIdle s ∉ ops

/-- The pool is as before, and so are the sessions that are closed. -/
structure Still (st st' : State) : Prop where
  idleSession : st'.idleSession = st.idleSession
  die : st'.heap.map Session.die = st.heap.map Session.die

theorem Still.isOpen (h : Still st st') (s : Nat) : st'.Open s ↔ st.Open s := by
  rw [State.Open, State.Open, State.isClosed_eq, State.isClosed_eq, h.die]

theorem Still.length (h : Still st st') : st'.heap.length = st.heap.length := by
  have hlength := congrArg List.length h.die
  rwa [length_map, length_map] at hlength

/-- An operation that passes ownership between streams and goroutines. -/
theorem Still.moves (h : Still st st')
    (hle : ∀ s, st'.live s + ops.countP (Op.holds s) ≤ st.live s + (op.holds s).toNat)
    (hge : ∀ s, st.Open s → st.live s + (op.holds s).toNat + (op.closes s).toNat ≤
      st'.live s + ops.countP (Op.holds s) + ops.countP (Op.closes s))
    (hop : ∀ s, op ≠ .removeIdle s := by simp)
    (hops : ∀ s, .removeIdle s ∉ ops ∧ .closeStreams s ∉ ops := by simp)
    (hreuse : cfg.disableReuse = true → (∀ s, op ≠ .selectDie s ∧ op ≠ .insertIdle s) →
      ∀ s, .selectDie s ∉ ops ∧ .insertIdle s ∉ ops := by simp) : Moves cfg st op st' ops where
  length := h.length
  wasOpen hs := (h.isOpen _).mp hs
  le s := by
    have := hle s
    rw [State.owners, State.owners, h.idleSession]
    omega
  ge {s} hs := by
    have := hge s ((h.isOpen s).mp hs)
    rw [State.owners, State.owners, h.idleSession]
    omega
  pool s hs := by
    rw [h.idleSession] at hs
    by_cases hopen : st.Open s
    · exact .inl ((h.isOpen s).mpr hopen)
    · exact .inr (.inr ⟨hs, hopen, hop s⟩)
  closing s hs := (hs.elim (hops s).1 (hops s).2).elim
  noReuse hcfg hpool hne := ⟨h.idleSession.trans hpool, hreuse hcfg hne⟩

/-- Nothing is owned by other streams than before. -/
structure Quiet (st st' : State) : Prop extends Still st st' where
  live : ∀ s, st'.live s = st.live s

theorem Quiet.refl (st : State) : Quiet st st := ⟨⟨rfl, rfl⟩, fun _ => rfl⟩

variable {f : Session → Session} {notify : Bool} {now : Int} {Ok : State → Op → Prop}

theorem Quiet.modifySession (st : State) (s : Nat)
    (h : ∀ x, (f x).die = x.die) : Quiet st (st.modifySession s f) :=
  ⟨⟨rfl, State.map_modify h⟩, fun _ => rfl⟩

/-- An operation that passes ownership to what its goroutine does next. -/
theorem Quiet.moves (h : Quiet st st') (hle : ∀ s, ops.countP (Op.holds s) ≤ (op.holds s).toNat)
    (hge : ∀ s, st.Open s → (op.holds s).toNat + (op.closes s).toNat ≤
      ops.countP (Op.holds s) + ops.countP (Op.closes s))
    (hop : ∀ s, op ≠ .removeIdle s := by simp)
    (hops : ∀ s, .removeIdle s ∉ ops ∧ .closeStreams s ∉ ops := by simp)
    (hreuse : cfg.disableReuse = true → (∀ s, op ≠ .selectDie s ∧ op ≠ .insertIdle s) →
      ∀ s, .selectDie s ∉ ops ∧ .insertIdle s ∉ ops := by simp) : Moves cfg st op st' ops := by
  refine h.toStill.moves (fun s => ?_) (fun s hs => ?_) hop hops hreuse
  · have := hle s
    rw [h.live]
    omega
  · have := hge s hs
    rw [h.live]
    omega

/-- The operation owns no session and does not belong to `Session.Close`. -/
def Op.plain : Op → Bool
  | openStream _ | newStream _ | writeSYN _ _ | addStream _ _ => false
  | dieHook _ | selectDie _ | insertIdle _ => false
  | removeIdle _ | closeStreams _ => false
  | _ => true

theorem Op.holds_of_plain (h : op.plain = true) (s : Nat) : op.holds s = false := by
  cases op <;> first | rfl | cases h

theorem Quiet.moves_plain (h : Quiet st st') (hop : op.plain = true)
    (hops : ∀ op ∈ ops, op.plain = true) (hclose : ∀ s, op ≠ .close s := by simp) :
    Moves cfg st op st' ops := by
  have hnone : ∀ s, ops.countP (Op.holds s) = 0 := by
    intro s
    rw [countP_eq_zero]
    intro op hmem
    rw [Op.holds_of_plain (hops op hmem)]
    exact Bool.false_ne_true
  have hcloses : ∀ s, op.closes s = false := by
    intro s
    cases op <;> first | rfl | exact absurd rfl (hclose _)
  have hnot : ∀ op : Op, op.plain = false → op ∉ ops := fun op hfalse hmem =>
    Bool.false_ne_true (hfalse.symm.trans (hops op hmem))
  refine h.moves (fun s => ?_) (fun s _ => ?_) ?_ (fun s => ?_) (fun _ _ s => ?_)
  · rw [hnone]
    exact zero_le _
  · rw [Op.holds_of_plain hop, hcloses]
    exact zero_le _
  · rintro s rfl
    cases hop
  · exact ⟨hnot _ rfl, hnot _ rfl⟩
  · exact ⟨hnot _ rfl, hnot _ rfl⟩

/-! ### The invariant -/

/-- The map of a session holds streams of that session. -/
def State.Mapped (st : State) : Prop :=
  ∀ s, ∀ p ∈ st.streamsOf s, (st.streams.map sess)[p.2]? = some s

/-- Every session has at most one owner, every open session has one or is being closed, and a
closed session that is still in the pool is being removed from it. -/
structure Inv (cfg : Config) (st : State) (m : Multiset Op) : Prop where
  le_one : ∀ s, st.owners s + m.countP (fun op => op.holds s = true) ≤
    if s < st.heap.length then 1 else 0
  owned : ∀ {s}, st.Open s → 1 ≤ st.owners s + m.countP (fun op => op.holds s = true) +
    m.countP fun op => op.closes s = true
  pool : ∀ s ∈ st.idleSession, st.Open s ∨ .removeIdle s ∈ m
  closing : ∀ s, .removeIdle s ∈ m ∨ .closeStreams s ∈ m → s < st.heap.length ∧ ¬st.Open s
  noReuse : cfg.disableReuse = true →
    st.idleSession = [] ∧ ∀ s, .selectDie s ∉ m ∧ .insertIdle s ∉ m
  mapped : st.Mapped

theorem countP_cons_toNat (p : Op → Bool) : (op ::ₘ m).countP (fun op => p op = true) =
    m.countP (fun op => p op = true) + (p op).toNat := by
  rw [Multiset.countP_cons]
  cases p op <;> rfl

theorem countP_coe_add (p : Op → Bool) : (ops + m : Multiset Op).countP (fun op => p op = true) =
    ops.countP p + m.countP (fun op => p op = true) := by
  rw [countP_add, coe_countP]
  simp

theorem Inv.of_moves (h : Inv cfg st (op ::ₘ m)) (hm : Moves cfg st op st' ops)
    (hmapped : st'.Mapped) : Inv cfg st' (ops + m) where
  le_one s := by
    have hle := hm.le s
    have hone := h.le_one s
    rw [countP_cons_toNat] at hone
    rw [hm.length, countP_coe_add]
    omega
  owned {s} hs := by
    have hge := hm.ge hs
    have howned := h.owned (hm.wasOpen hs)
    rw [countP_cons_toNat, countP_cons_toNat] at howned
    rw [countP_coe_add, countP_coe_add]
    omega
  pool s hs := by
    rcases hm.pool s hs with hopen | hremove | ⟨hold, hclosed, hne⟩
    · exact .inl hopen
    · exact .inr (Multiset.mem_add.mpr (.inl (by simpa using hremove)))
    · rcases h.pool s hold with hopen | hremove
      · exact absurd hopen hclosed
      · rcases Multiset.mem_cons.mp hremove with heq | hremove
        · exact absurd heq.symm hne
        · exact .inr (Multiset.mem_add.mpr (.inr hremove))
  closing s hs := by
    have hcases : (.removeIdle s ∈ ops ∨ .closeStreams s ∈ ops) ∨
        (.removeIdle s ∈ op ::ₘ m ∨ .closeStreams s ∈ op ::ₘ m) := by
      simp only [Multiset.mem_add, Multiset.mem_coe, Multiset.mem_cons] at hs ⊢
      tauto
    rw [hm.length]
    rcases hcases with hnew | hold
    · obtain ⟨hopen, hclosed⟩ := hm.closing s hnew
      exact ⟨hopen.lt, hclosed⟩
    · obtain ⟨hlt, hclosed⟩ := h.closing s hold
      exact ⟨hlt, fun hopen => hclosed (hm.wasOpen hopen)⟩
  noReuse hcfg := by
    obtain ⟨hpool, hnone⟩ := h.noReuse hcfg
    have hop : ∀ s, op ≠ .selectDie s ∧ op ≠ .insertIdle s := fun s =>
      ⟨fun heq => (hnone s).1 (heq ▸ Multiset.mem_cons_self _ _),
        fun heq => (hnone s).2 (heq ▸ Multiset.mem_cons_self _ _)⟩
    obtain ⟨hpool', hnone'⟩ := hm.noReuse hcfg hpool hop
    refine ⟨hpool', fun s => ?_⟩
    have hold := hnone s
    have hnew := hnone' s
    simp only [Multiset.mem_add, Multiset.mem_coe, Multiset.mem_cons] at hold ⊢
    tauto
  mapped := hmapped

/-! ### Streams -/

/-- The operation neither takes the session of a stream with it that dies before its hook is
installed, nor puts a closed session into the pool. -/
def Op.safe (st : State) : Op → Bool
  | .finish r _ =>
    (st.streams[r]?).all fun x => x.died || x.dieHook || st.isClosed x.sess
  | .insertIdle s => !st.isClosed s
  | _ => true

/-- No session is lost or comes back closed by the operation. -/
def Safe (st : State) (op : Op) : Prop := op.safe st = true

open Client.State Op

theorem Safe.hook {x : Stream} (h : Safe st (.finish r notify))
    (hx : st.streams[r]? = some x) (hdied : x.died = false) (hopen : st.Open x.sess) :
    x.dieHook = true := by
  rw [Safe, safe, hx, all_some, hdied, hopen] at h
  simpa using h

theorem Safe.isOpen (h : Safe st (.insertIdle s)) : st.Open s := by
  simpa [Safe, safe, Open] using h

namespace State

theorem live_set {x : Stream} (hx : st.streams[r]? = some x) (hdied : x.died = false) (s : Nat) :
    live { st with streams := st.streams.set r { x with died := true, dieHook := false } } s +
      (decide (x.sess = s)).toNat = st.live s := by
  obtain ⟨hr, hget⟩ := List.getElem?_eq_some_iff.mp hx
  have hpos : x.sess = s → 0 < st.live s := fun hs =>
    (st.hasLiveStream_iff s).mp ⟨x, mem_of_getElem? hx, hs, hdied⟩
  have hset : live
      { st with streams := st.streams.set r { x with died := true, dieHook := false } } s =
        st.live s - (decide (x.sess = s)).toNat := by
    rw [live, live, countP_set hr, hget]
    by_cases hs : x.sess = s <;> simp [hs, hdied]
  rw [hset]
  by_cases hs : x.sess = s
  · have := hpos hs
    simp [hs]
    omega
  · simp [hs]

theorem map_sess_set {x x' : Stream} (hx : st.streams[r]? = some x) (hsess : x'.sess = x.sess) :
    (st.streams.set r x').map sess = st.streams.map sess := by
  obtain ⟨hr, hget⟩ := List.getElem?_eq_some_iff.mp hx
  have hr' : r < (st.streams.map sess).length := by simpa using hr
  have hself : x'.sess = (st.streams.map sess)[r] := by rw [hsess, getElem_map, hget]
  rw [map_set, hself, set_getElem_self]

theorem finish_eq (st : State) (r : Nat) (notify : Bool) :
    st.finish r notify = (st, []) ∨
      ∃ x, st.streams[r]? = some x ∧ x.died = false ∧
        st.finish r notify =
          ({ st with streams := st.streams.set r { x with died := true, dieHook := false } },
            (if notify then [.streamClosed x.sess x.id] else []) ++
              if x.dieHook then [.dieHook x.sess] else []) := by
  rw [finish]
  cases hx : st.streams[r]? with
  | none => exact .inl rfl
  | some x =>
    cases hdied : x.died with
    | true => exact .inl (by simp [hdied])
    | false => exact .inr ⟨x, rfl, hdied, by simp [hdied]⟩

end State

theorem moves_finish (hsafe : Safe st (.finish r notify)) :
    Moves cfg st (.finish r notify) (st.finish r notify).1 (st.finish r notify).2 := by
  rcases st.finish_eq r notify with heq | ⟨x, hx, hdied, heq⟩
  · rw [heq]
    exact (Quiet.refl st).moves (by simp) (by simp [holds, closes])
  rw [heq]
  refine Still.moves ⟨rfl, rfl⟩ (fun s => ?_) (fun s hs => ?_) (by simp) (fun s => ?_)
    (fun _ _ s => ?_)
  · have hlive := live_set hx hdied s
    by_cases hsess : x.sess = s <;> cases notify <;> cases x.dieHook <;>
      simp [holds, hsess] at hlive ⊢ <;> omega
  · have hlive := live_set hx hdied s
    have hhook : x.sess = s → x.dieHook = true := by
      rintro rfl
      exact hsafe.hook hx hdied hs
    by_cases hsess : x.sess = s
    · rw [hhook hsess]
      cases notify <;> simp [holds, closes, hsess] at hlive ⊢ <;> omega
    · simp only [hsess, decide_false, Bool.toNat_false, add_zero] at hlive
      simp only [holds, closes, Bool.toNat_false, hlive]
      omega
  · cases notify <;> cases x.dieHook <;> simp
  · cases notify <;> cases x.dieHook <;> simp

/-- What closing streams of session `s` does. -/
structure ClosesStreams (s : Nat) (st st' : State) (ops : List Op) : Prop where
  idleSession : st'.idleSession = st.idleSession
  heap : st'.heap = st.heap
  live_ne : ∀ t, t ≠ s → st'.live t = st.live t
  live_le : st'.live s + ops.length ≤ st.live s
  ops_eq : ∀ op ∈ ops, op = .dieHook s
  sess : st'.streams.map sess = st.streams.map sess

theorem closesStreams_finish (h : (st.streams.map sess)[r]? = some s) :
    ClosesStreams s st (st.finish r false).1 (st.finish r false).2 := by
  rcases st.finish_eq r false with heq | ⟨x, hx, hdied, heq⟩
  · rw [heq]
    exact ⟨rfl, rfl, fun _ _ => rfl, le_rfl, by simp, rfl⟩
  have hsess : x.sess = s := by
    rw [getElem?_map, hx] at h
    exact some.inj h
  have hlive := live_set hx hdied
  rw [heq]
  refine ⟨rfl, rfl, fun t ht => ?_, ?_, ?_, ?_⟩
  · have := hlive t
    rw [decide_eq_false (by rw [hsess]; exact ht.symm)] at this
    exact this
  · have := hlive s
    rw [decide_eq_true hsess] at this
    cases x.dieHook <;> simp at this ⊢ <;> omega
  · rw [hsess]
    cases x.dieHook <;> simp
  · exact map_sess_set hx rfl

theorem closesStreams_all {rs : List Nat}
    (h : ∀ r ∈ rs, (st.streams.map sess)[r]? = some s) :
    ClosesStreams s st (closeLocallyAll rs st).1 (closeLocallyAll rs st).2 := by
  induction rs generalizing st with
  | nil => exact ⟨rfl, rfl, fun _ _ => rfl, le_rfl, by simp [closeLocallyAll], rfl⟩
  | cons r rs ih =>
    have hfirst := closesStreams_finish (h r mem_cons_self)
    have hrest := @ih (st.finish r false).1 fun q hq => by
      rw [hfirst.sess]
      exact h q (mem_cons_of_mem _ hq)
    rw [closeLocallyAll]
    refine ⟨hrest.idleSession.trans hfirst.idleSession, hrest.heap.trans hfirst.heap,
      fun t ht => (hrest.live_ne t ht).trans (hfirst.live_ne t ht), ?_, ?_,
      hrest.sess.trans hfirst.sess⟩
    · have h₁ := hfirst.live_le
      have h₂ := hrest.live_le
      dsimp only
      rw [length_append]
      omega
    · exact forall_mem_append.mpr ⟨hfirst.ops_eq, hrest.ops_eq⟩

/-- The streams of a session are streams of that session. -/
theorem State.Mapped.closesStreams (h : st.Mapped) (s : Nat) :
    ClosesStreams s st (closeLocallyAll ((st.streamsOf s).map Prod.snd) st).1
      (closeLocallyAll ((st.streamsOf s).map Prod.snd) st).2 := by
  apply closesStreams_all
  intro r hr
  obtain ⟨p, hp, rfl⟩ := mem_map.mp hr
  exact h s p hp

theorem moves_closeStreams (hclosed : ¬st.Open s) (hmapped : st.Mapped) :
    Moves cfg st (.closeStreams s) (st.closeStreams s).1 (st.closeStreams s).2 := by
  have hcloses := hmapped.closesStreams s
  rw [State.closeStreams]
  generalize State.closeLocallyAll ((st.streamsOf s).map Prod.snd) st = c at hcloses
  obtain ⟨st', ops⟩ := c
  have hholds : ∀ t, ops.countP (Op.holds t) = if t = s then ops.length else 0 := by
    intro t
    split
    · rename_i hts
      rw [countP_eq_length.mpr]
      intro op hop
      rw [hcloses.ops_eq op hop]
      simp [Op.holds, hts]
    · rename_i hts
      rw [countP_eq_zero]
      intro op hop
      rw [hcloses.ops_eq op hop]
      simpa [Op.holds] using Ne.symm hts
  have hstill : Still st (st'.modifySession s fun x => { x with streams := [] }) := by
    have hmap : (st'.heap.modify s fun x => { x with streams := [] }).map Session.die =
        st'.heap.map Session.die := State.map_modify fun _ => rfl
    exact ⟨hcloses.idleSession, hmap.trans (congrArg _ hcloses.heap)⟩
  refine hstill.moves (fun t => ?_) (fun t ht => ?_) (by simp) (fun t => ?_) (fun _ _ t => ?_)
  · have hle := hcloses.live_le
    rw [hholds]
    change st'.live t + _ ≤ _
    split
    · rename_i hts
      subst hts
      simpa [Op.holds] using hle
    · rename_i hts
      rw [hcloses.live_ne t hts]
      omega
  · have hts : t ≠ s := fun hts => hclosed (hts ▸ ht)
    change _ ≤ st'.live t + _ + _
    rw [hcloses.live_ne t hts]
    simp only [Op.holds, Op.closes, Bool.toNat_false]
    omega
  · constructor <;> intro hmem <;> cases hcloses.ops_eq _ hmem
  · constructor <;> intro hmem <;> cases hcloses.ops_eq _ hmem

theorem moves_addStream {sid : UInt32} :
    Moves cfg st (.addStream s sid) (st.addStream s sid).1 (st.addStream s sid).2 := by
  rw [State.addStream]
  split
  · exact (Quiet.refl st).moves (by simp [Op.holds]) (by simp [Op.holds, Op.closes, toNat_decide])
  · have hlive : ∀ t, State.live
        { st with streams := st.streams ++ [⟨s, sid, false, false, false⟩] } t =
          st.live t + (decide (s = t)).toNat := by
      intro t
      rw [State.live, State.live, countP_append]
      by_cases hst : s = t <;> simp [hst]
    refine Still.moves ⟨rfl, State.map_modify fun _ => rfl⟩ (fun t => ?_) (fun t _ => ?_)
    · exact (hlive t).le
    · exact (hlive t).ge

theorem quiet_setDieHook (r : Nat) : Quiet st (st.setDieHook r) := by
  refine ⟨⟨rfl, rfl⟩, fun s => ?_⟩
  rw [live_eq, live_eq]
  exact congrArg _ (map_modify fun _ => rfl)

/-! ### The pool -/

theorem State.count_removeIdle (s t : Nat) :
    (st.removeIdle s).idleSession.count t = if t = s then 0 else st.idleSession.count t := by
  rw [removeIdle]
  split
  · rename_i hts
    rw [List.count_eq_zero, List.mem_filter]
    simp [hts]
  · rename_i hts
    rw [count_filter (by simpa using hts)]

theorem State.count_insertIdle (s t : Nat) (now : Int) :
    (st.insertIdle s now).idleSession.count t = if t = s then 1 else st.idleSession.count t := by
  have hzero : ∀ {p : Nat → Bool}, p t = false → (st.idleSession.filter p).count t = 0 := by
    intro p hp
    rw [List.count_eq_zero, List.mem_filter]
    simp [hp]
  rw [insertIdle]
  rw [count_append]
  rcases lt_trichotomy s t with hst | rfl | hts
  · rw [List.count_cons_of_ne (by omega), List.count_filter (by simpa using hst),
      hzero (by simp; omega), if_neg (by omega), add_zero]
  · rw [List.count_cons_self, hzero (by simp), hzero (by simp), if_pos rfl]
  · rw [List.count_cons_of_ne (by omega), hzero (by simp; omega),
      count_filter (by simpa using hts), if_neg (by omega), zero_add]

theorem moves_getIdleSession (hone : ∀ s, st.owners s ≤ 1) :
    Moves cfg st .getIdleSession st.getIdleSession.1 st.getIdleSession.2 := by
  rw [State.getIdleSession]
  cases hpool : st.idleSession with
  | nil =>
    exact (Quiet.refl st).moves (by simp [Op.holds]) (by simp [Op.holds, Op.closes])
  | cons s rest =>
    have hcount : ∀ t, (st.removeIdle s).owners t + (if s = t then 1 else 0) = st.owners t := by
      intro t
      have hlive : (st.removeIdle s).live t = st.live t := rfl
      have hle := hone t
      rw [State.owners] at hle
      rw [State.owners, State.owners, State.count_removeIdle, hlive]
      by_cases hst : s = t
      · have hpos : 0 < st.idleSession.count t := by
          rw [count_pos_iff, hpool, hst]
          exact mem_cons_self
        rw [if_pos hst.symm, if_pos hst]
        omega
      · rw [if_neg (Ne.symm hst), if_neg hst, add_zero]
    refine ⟨rfl, id, fun t => ?_, fun {t} _ => ?_, fun t ht => ?_, by simp, fun _ hnil => ?_⟩
    · simp [Op.holds, ← hcount t]
    · simp [Op.holds, Op.closes, ← hcount t]
    · have hmem : t ∈ st.idleSession := (mem_filter.mp ht).1
      by_cases hopen : st.Open t
      · exact .inl hopen
      · exact .inr (.inr ⟨hmem, hopen, by simp⟩)
    · rw [hpool] at hnil
      cases hnil

theorem moves_insertIdle (hopen : st.Open s) (hone : st.owners s = 0) :
    Moves cfg st (.insertIdle s) (st.insertIdle s now) [] := by
  have hmap : (st.insertIdle s now).heap.map Session.die = st.heap.map Session.die :=
    map_modify fun _ => rfl
  have hiff : ∀ t, (st.insertIdle s now).Open t ↔ st.Open t := by
    intro t
    rw [Open, Open, isClosed_eq, isClosed_eq, hmap]
  have hcount : ∀ t, (st.insertIdle s now).owners t = st.owners t + (if s = t then 1 else 0) := by
    intro t
    have hlive : (st.insertIdle s now).live t = st.live t := rfl
    rw [owners, owners, count_insertIdle, hlive]
    rw [owners] at hone
    by_cases hst : s = t
    · subst hst
      rw [if_pos rfl, if_pos rfl]
      omega
    · rw [if_neg (Ne.symm hst), if_neg hst, add_zero]
  refine ⟨?_, fun ht => (hiff _).mp ht, fun t => ?_, fun {t} _ => ?_, fun t ht => ?_, by simp, ?_⟩
  · simpa using congrArg length hmap
  · simp [holds, hcount t, toNat_decide]
  · simp [holds, closes, hcount t, toNat_decide]
  · by_cases ht' : st.Open t
    · exact .inl ((hiff t).mpr ht')
    · have hts : t ≠ s := fun hts => ht' (hts ▸ hopen)
      have hmem : 0 < st.idleSession.count t := by
        have hpos := count_pos_iff.mpr ht
        rwa [count_insertIdle, if_neg hts] at hpos
      exact .inr (.inr ⟨count_pos_iff.mp hmem, ht', by simp⟩)
  · intro _ _ hop
    exact absurd rfl (hop s).2

theorem moves_removeIdle (hclosed : ¬st.Open s)
    (hreuse : cfg.disableReuse = true → st.idleSession = []) :
    Moves cfg st (.removeIdle s) (if cfg.disableReuse then st else st.removeIdle s) [] := by
  cases hcfg : cfg.disableReuse with
  | true =>
    have hpool := hreuse hcfg
    simp only [if_true]
    refine ⟨rfl, id, by simp [holds], by simp [holds, closes], ?_, by simp, by simp⟩
    rw [hpool]
    nofun
  | false =>
    rw [if_neg (by simp)]
    have hlive : ∀ t, (st.removeIdle s).live t = st.live t := fun _ => rfl
    refine ⟨rfl, id, fun t => ?_, fun {t} ht => ?_, fun t ht => ?_, by simp, by simp [hcfg]⟩
    · rw [owners, owners, count_removeIdle, hlive]
      split <;> simp [holds]
    · have hts : t ≠ s := fun hts => hclosed (hts ▸ ht)
      rw [owners, owners, count_removeIdle, hlive, if_neg hts]
      simp [holds, closes]
    · obtain ⟨hmem, hts⟩ := mem_filter.mp ht
      by_cases hopen : st.Open t
      · exact .inl hopen
      · exact .inr (.inr ⟨hmem, hopen, fun heq => by cases heq; simp at hts⟩)

theorem ne_of_closed {t : Nat} (hclosed : st.isClosed s = true) (ht : st.Open t) : s ≠ t := by
  rintro rfl
  rw [Open, hclosed] at ht
  cases ht

theorem moves_close : Moves cfg st (.close s) (st.close s).1 (st.close s).2 := by
  rw [State.close]
  split
  · rename_i hclosed
    refine (Quiet.refl st).moves (by simp [Op.holds]) (fun t ht => ?_)
    simp [Op.holds, Op.closes, ne_of_closed hclosed ht]
  · rename_i hopen
    have hopen : st.Open s := by simpa [State.Open] using hopen
    have hiff : ∀ t, (st.modifySession s fun x => { x with die := true }).Open t ↔
        st.Open t ∧ t ≠ s := by
      intro t
      rw [State.Open, State.Open, State.isClosed, State.isClosed, State.modifySession,
        getElem?_modify]
      by_cases hst : s = t
      · cases st.heap[t]? <;> simp [hst]
      · cases st.heap[t]? <;> simp [hst, Ne.symm hst]
    have howners : ∀ t, (st.modifySession s fun x => { x with die := true }).owners t =
        st.owners t := fun _ => rfl
    refine ⟨by simp [State.modifySession], fun ht => ((hiff _).mp ht).1, fun t => ?_,
      fun {t} ht => ?_, fun t ht => ?_, fun t ht => ?_, by simp [State.modifySession]⟩
    · rw [howners]
      simp [Op.holds]
    · have hts := ((hiff t).mp ht).2
      rw [howners]
      simp [Op.holds, Op.closes, Ne.symm hts]
    · by_cases hts : t = s
      · exact .inr (.inl (by simp [hts]))
      · by_cases ht' : st.Open t
        · exact .inl ((hiff t).mpr ⟨ht', hts⟩)
        · exact .inr (.inr ⟨ht, ht', by simp⟩)
    · obtain rfl : t = s := by simpa using ht
      exact ⟨hopen, fun ht' => ((hiff t).mp ht').2 rfl⟩

theorem moves_dieHook :
    Moves cfg st (.dieHook s) st
      (if st.isClosed s then [] else if cfg.disableReuse then [.close s] else [.selectDie s]) := by
  have hquiet := Quiet.refl st
  cases hclosed : st.isClosed s with
  | true =>
    rw [if_pos rfl]
    refine hquiet.moves (by simp) (fun t ht => ?_)
    simp [holds, closes, ne_of_closed hclosed ht]
  | false =>
    rw [if_neg (by simp)]
    cases hcfg : cfg.disableReuse with
    | true =>
      rw [if_pos rfl]
      exact hquiet.moves (by simp [holds]) (by simp [holds, closes, toNat_decide])
    | false =>
      rw [if_neg (by simp)]
      exact hquiet.moves (by simp [holds, toNat_decide])
        (by simp [holds, closes, toNat_decide]) (by simp) (by simp) (by simp [hcfg])

theorem moves_idleCleanupExpTime {expTime : Int} :
    Moves cfg st (.idleCleanupExpTime expTime) (st.idleCleanupExpTime cfg expTime now).1
      (st.idleCleanupExpTime cfg expTime now).2 := by
  have hmap : (State.cleanupLoop cfg expTime now st.idleSession 0 st.heap).1.map Session.die =
      st.heap.map Session.die := State.cleanupLoop_map fun _ => rfl
  have hcount := State.cleanupLoop_count cfg expTime now st.idleSession 0 st.heap
  rw [State.idleCleanupExpTime]
  generalize State.cleanupLoop cfg expTime now st.idleSession 0 st.heap = c at hmap hcount
  obtain ⟨heap, keep, toClose⟩ := c
  dsimp only at hmap hcount ⊢
  have hiff : ∀ t, State.Open { st with idleSession := keep, heap := heap } t ↔ st.Open t := by
    intro t
    rw [State.Open, State.Open, State.isClosed_eq, State.isClosed_eq, hmap]
  have hholds : ∀ t, (toClose.map Op.close).countP (Op.holds t) = 0 := by
    intro t
    simp [countP_eq_zero, Op.holds]
  have hcloses : ∀ t, (toClose.map Op.close).countP (Op.closes t) = toClose.count t := by
    intro t
    rw [List.countP_map, List.count]
    congr 1
  have hlive : ∀ t, State.live { st with idleSession := keep, heap := heap } t = st.live t :=
    fun _ => rfl
  refine ⟨by simpa using congrArg length hmap, fun ht => (hiff _).mp ht, fun t => ?_,
    fun {t} _ => ?_, fun t ht => ?_, by simp, fun _ hpool _ => ?_⟩
  · have := hcount t
    rw [State.owners, State.owners, hholds, hlive]
    dsimp only
    omega
  · have := hcount t
    rw [State.owners, State.owners, hholds, hcloses, hlive]
    simp only [Op.holds, Op.closes, Bool.toNat_false]
    omega
  · by_cases hopen : st.Open t
    · exact .inl ((hiff t).mpr hopen)
    · have := hcount t
      have hpos := count_pos_iff.mpr ht
      exact .inr (.inr ⟨count_pos_iff.mp (by dsimp only at hpos; omega), hopen, by simp⟩)
  · refine ⟨eq_nil_iff_forall_not_mem.mpr fun t ht => ?_, by simp⟩
    have hpos : 0 < keep.count t := count_pos_iff.mpr ht
    have := hcount t
    rw [hpool, count_nil] at this
    omega

/-! ### Maps of streams -/

theorem State.Mapped.of_subset (h : st.Mapped)
    (hsess : st'.streams.map sess = st.streams.map sess)
    (hsub : ∀ s, st'.streamsOf s ⊆ st.streamsOf s) : st'.Mapped := by
  intro s p hp
  rw [hsess]
  exact h s p (hsub s hp)

theorem State.streamsOf_modifySession (s : Nat) (h : ∀ x, (f x).streams ⊆ x.streams) (t : Nat) :
    (st.modifySession s f).streamsOf t ⊆ st.streamsOf t := by
  rw [streamsOf, streamsOf, modifySession, getElem?_modify]
  cases st.heap[t]? with
  | none => exact fun _ hp => hp
  | some x =>
    split
    · exact h x
    · exact fun _ hp => hp

theorem mapped_exec (env : Env) (h : st.Mapped) : (exec cfg env op st).1.Mapped := by
  have hmodify : ∀ s {f : Session → Session}, (∀ x, (f x).streams ⊆ x.streams) →
      (st.modifySession s f).Mapped := fun s _ hf =>
    h.of_subset rfl (streamsOf_modifySession s hf)
  cases op with
  | createStream | dialOut | openStream | writeSYN | streamClosed | writeFIN | dieHook | selectDie |
    recvSYNACK | idleCleanup => exact h
  | addSession | deleteSession | dieCancel | closeSessions => exact h
  | run s | newStream s | recvReturn s | insertIdle s => exact hmodify s fun _ => refl _
  | deleteStream s sid | recvFIN s sid => exact hmodify s fun _ => List.filter_sublist.subset
  | removeIdle s =>
    rw [exec]
    split
    · exact h
    · exact h
  | getIdleSession =>
    rw [exec, State.getIdleSession]
    split
    · exact h
    · exact h
  | close s =>
    rw [exec, State.close]
    split
    · exact h
    · exact hmodify s fun _ => refl _
  | setDieHook r => exact h.of_subset (map_modify fun _ => rfl) fun _ => refl _
  | finish r notify =>
    rw [exec]
    rcases st.finish_eq r notify with heq | ⟨x, hx, -, heq⟩
    · rw [heq]
      exact h
    · rw [heq]
      exact h.of_subset (map_sess_set hx rfl) fun _ => refl _
  | closeStreams s =>
    have hcloses := h.closesStreams s
    have hmapped : (closeLocallyAll ((st.streamsOf s).map Prod.snd) st).1.Mapped := by
      refine h.of_subset hcloses.sess fun t => ?_
      unfold streamsOf at hcloses ⊢
      rw [hcloses.heap]
      exact refl _
    exact hmapped.of_subset rfl (streamsOf_modifySession s fun _ => List.nil_subset _)
  | idleCleanupExpTime expTime =>
    refine h.of_subset rfl fun s => ?_
    have hmap := @cleanupLoop_map _ cfg expTime env.now st.idleSession 0 st.heap
      Session.streams fun _ => rfl
    rw [exec, State.streamsOf_eq, State.streamsOf_eq, State.idleCleanupExpTime, hmap]
    exact refl _
  | createSession =>
    refine h.of_subset rfl fun s => ?_
    rw [exec, State.createSession, State.streamsOf_eq, State.streamsOf_eq, List.map_append]
    rcases lt_trichotomy s st.heap.length with hlt | rfl | hgt
    · rw [List.getElem?_append_left (by simpa using hlt)]
      exact refl _
    · simp
    · rw [List.getElem?_eq_none (by simp; omega)]
      exact List.nil_subset _
  | addStream s sid =>
    rw [exec, State.addStream]
    split
    · exact h
    · intro t p hp
      have hcases : p ∈ st.streamsOf t ∨ p = (sid, st.streams.length) ∧ s = t := by
        rw [streamsOf, modifySession, List.getElem?_modify] at hp
        rw [streamsOf]
        cases hx : st.heap[t]? with
        | none => simp [hx] at hp
        | some x =>
          by_cases hst : s = t
          · simp only [hx, if_pos hst, Option.map_eq_map, Option.map_some, Option.elim_some,
              List.mem_cons, List.mem_filter] at hp ⊢
            tauto
          · simp only [hx, if_neg hst, Option.map_eq_map, Option.map_some, Option.elim_some] at hp ⊢
            exact .inl hp
      rw [List.map_append]
      rcases hcases with hold | ⟨rfl, rfl⟩
      · have hget := h t p hold
        rw [List.getElem?_append_left (List.getElem?_eq_some_iff.mp hget).1, hget]
      · simp

/-! ### Runs -/

theorem Inv.owners_le (h : Inv cfg st m) (s : Nat) : st.owners s ≤ 1 := by
  have := h.le_one s
  split at this <;> omega

/-- Every operation but the creation of a session passes on what it owns. -/
theorem Inv.moves (env : Env) (hsafe : Safe st op) (h : Inv cfg st (op ::ₘ m))
    (hne : op ≠ .createSession) :
    Moves cfg st op (exec cfg env op st).1 (exec cfg env op st).2 := by
  have hquiet := Quiet.refl st
  cases op with
  | createSession => exact absurd rfl hne
  | getIdleSession => exact moves_getIdleSession h.owners_le
  | addStream s sid => exact moves_addStream
  | finish r notify => exact moves_finish hsafe
  | close s => exact moves_close
  | idleCleanupExpTime expTime => exact moves_idleCleanupExpTime
  | closeStreams s =>
    exact moves_closeStreams (h.closing s (.inr (mem_cons_self _ _))).2 h.mapped
  | removeIdle s =>
    exact moves_removeIdle (h.closing s (.inl (mem_cons_self _ _))).2 fun hcfg => (h.noReuse hcfg).1
  | insertIdle s =>
    refine moves_insertIdle hsafe.isOpen ?_
    have hone := h.le_one s
    rw [countP_cons_toNat, if_pos hsafe.isOpen.lt] at hone
    simp only [holds, decide_true, Bool.toNat_true] at hone
    omega
  -- These own a session and hand it on, or find it closed.
  | openStream s | selectDie s =>
    refine hquiet.moves (fun t => ?_) (fun t _ => ?_) (by simp) ?_ ?_ <;> dsimp only [exec] <;>
      split <;> simp [holds, closes, toNat_decide]
  | newStream s =>
    refine (Quiet.modifySession st s ?_).moves (fun t => ?_) (fun t _ => ?_) (by simp) ?_ ?_ <;>
      simp [exec, holds, closes, toNat_decide]
  | writeSYN s sid =>
    refine hquiet.moves (fun t => ?_) (fun t _ => ?_) (by simp) ?_ ?_ <;> dsimp only [exec] <;>
      split <;> simp [holds, closes, toNat_decide]
    rw [List.countP_cons]
    simp [closes]
  | dieHook s => exact moves_dieHook
  -- These own none.
  | createStream =>
    refine hquiet.moves_plain rfl ?_
    dsimp only [exec]
    split
    · simp
    · split <;> simp [plain]
  | dialOut | streamClosed s sid | writeFIN s sid | recvSYNACK s sid =>
    refine hquiet.moves_plain rfl ?_
    dsimp only [exec]
    split <;> simp [plain]
  | addSession s => exact Quiet.moves_plain ⟨⟨rfl, rfl⟩, fun _ => rfl⟩ rfl (by simp [exec])
  | run s | deleteStream s sid =>
    refine (Quiet.modifySession st s ?_).moves_plain rfl ?_ <;> simp [exec]
  | setDieHook r => exact (quiet_setDieHook r).moves_plain rfl (by simp [exec])
  | deleteSession s =>
    exact Quiet.moves_plain ⟨⟨rfl, rfl⟩, fun _ => rfl⟩ rfl (by simp [exec])
  | recvFIN s sid =>
    refine (Quiet.modifySession st s ?_).moves_plain rfl ?_
    · exact fun _ => rfl
    · dsimp only [exec]
      split <;> simp [plain]
  | recvReturn s =>
    refine (Quiet.modifySession st s ?_).moves_plain rfl ?_ <;> simp [exec, plain]
  | idleCleanup => exact hquiet.moves_plain rfl (by simp [exec, plain])
  | dieCancel | closeSessions =>
    exact Quiet.moves_plain ⟨⟨rfl, rfl⟩, fun _ => rfl⟩ rfl (by simp [exec, plain])

/-- A new session is owned by the goroutine that has created it. -/
theorem Inv.createSession (h : Inv cfg st (.createSession ::ₘ m))
    (hmapped : st.createSession.1.Mapped) :
    Inv cfg st.createSession.1 (st.createSession.2 + m) := by
  have hlength : st.createSession.1.heap.length = st.heap.length + 1 := by
    simp [State.createSession]
  have howners : ∀ s, st.createSession.1.owners s = st.owners s := fun _ => rfl
  have hopen : ∀ s, st.createSession.1.Open s ↔ st.Open s ∨ s = st.heap.length := by
    intro s
    rw [State.Open, State.Open, State.isClosed, State.isClosed, State.createSession]
    rcases lt_trichotomy s st.heap.length with hlt | rfl | hgt
    · rw [List.getElem?_append_left hlt]
      simp [hlt.ne]
    · simp
    · rw [List.getElem?_eq_none (by simp; omega), List.getElem?_eq_none (by omega)]
      simp [hgt.ne']
  have hholds : ∀ s, st.createSession.2.countP (Op.holds s) =
      if s = st.heap.length then 1 else 0 := by
    intro s
    simp [State.createSession, List.countP_cons, Op.holds, eq_comm]
  -- what it starts only opens a stream, or is plain
  have hmem : ∀ op : Op, op.plain = false → (∀ s, op ≠ .openStream s) →
      op ∈ (st.createSession.2 + m : Multiset Op) → op ∈ Op.createSession ::ₘ m := by
    intro op hplain hopens hop
    simp only [State.createSession, mem_add, mem_coe, List.mem_cons,
      List.not_mem_nil, or_false] at hop
    rcases hop with (rfl | rfl | rfl) | hop
    · cases hplain
    · cases hplain
    · exact absurd rfl (hopens _)
    · exact mem_cons_of_mem hop
  refine ⟨fun s => ?_, fun {s} hs => ?_, fun s hs => ?_, fun s hs => ?_, fun hcfg => ?_, hmapped⟩
  · have hone := h.le_one s
    rw [countP_cons_toNat] at hone
    rw [countP_coe_add, hholds, howners, hlength]
    by_cases hlt : s < st.heap.length
    · rw [if_pos hlt] at hone
      rw [if_neg (by omega), if_pos (by omega)]
      omega
    · rw [if_neg hlt] at hone
      by_cases heq : s = st.heap.length
      · rw [if_pos heq, if_pos (by omega)]
        omega
      · rw [if_neg heq, if_neg (by omega)]
        omega
  · rw [countP_coe_add, countP_coe_add, hholds, howners]
    rcases (hopen s).mp hs with hold | heq
    · have howned := h.owned hold
      rw [countP_cons_toNat, countP_cons_toNat] at howned
      change 1 ≤ _ + (_ + 0) + (_ + 0) at howned
      omega
    · rw [if_pos heq]
      omega
  · rcases h.pool s hs with hold | hremove
    · exact .inl ((hopen s).mpr (.inl hold))
    · rcases mem_cons.mp hremove with heq | hremove
      · cases heq
      · exact .inr (mem_add.mpr (.inr hremove))
  · have hold : .removeIdle s ∈ Op.createSession ::ₘ m ∨
        .closeStreams s ∈ Op.createSession ::ₘ m := hs.imp (hmem _ rfl nofun) (hmem _ rfl nofun)
    obtain ⟨hlt, hclosed⟩ := h.closing s hold
    refine ⟨by omega, fun hs' => ?_⟩
    rcases (hopen s).mp hs' with hs' | heq
    · exact hclosed hs'
    · omega
  · obtain ⟨hpool, hnone⟩ := h.noReuse hcfg
    exact ⟨hpool, fun s => ⟨fun hs => (hnone s).1 (hmem _ rfl nofun hs),
      fun hs => (hnone s).2 (hmem _ rfl nofun hs)⟩⟩

theorem mem_of_mem_cons_plain {other : Op} (hop : op.plain = true) (hother : other.plain = false)
    (h : other ∈ op ::ₘ m) : other ∈ m := by
  rcases mem_cons.mp h with rfl | h
  · rw [hop] at hother
    cases hother
  · exact h

theorem Inv.cons_plain (h : Inv cfg st m) (hop : op.plain = true) : Inv cfg st (op ::ₘ m) where
  le_one s := by
    rw [countP_cons_toNat, holds_of_plain hop]
    exact h.le_one s
  owned {s} hs := by
    have howned := h.owned hs
    rw [countP_cons_toNat, countP_cons_toNat]
    omega
  pool s hs := (h.pool s hs).imp_right mem_cons_of_mem
  closing s hs := h.closing s
    (hs.imp (mem_of_mem_cons_plain hop rfl) (mem_of_mem_cons_plain hop rfl))
  noReuse hcfg := by
    obtain ⟨hpool, hnone⟩ := h.noReuse hcfg
    exact ⟨hpool, fun s => ⟨fun hs => (hnone s).1 (mem_of_mem_cons_plain hop rfl hs),
      fun hs => (hnone s).2 (mem_of_mem_cons_plain hop rfl hs)⟩⟩
  mapped := h.mapped

theorem inv_start {ts : List (Thread Kind Op)} {t : Thread Kind Op} (hstart : Starts cfg st ts t)
    (h : Inv cfg st m) : Inv cfg st (t.ops + m) := by
  have hplain : ∃ op : Op, t.ops = [op] ∧ op.plain = true := by
    cases hstart <;> exact ⟨_, rfl, rfl⟩
  obtain ⟨op, hops, hop⟩ := hplain
  rw [hops]
  simpa using h.cons_plain hop

theorem inv_invariant (cfg : Config) : Invariant (system cfg) Safe (Inv cfg) where
  start hstart h := inv_start hstart h
  exec {env op st m} hsafe h := by
    have hmapped := @mapped_exec cfg st op env h.mapped
    by_cases hop : op = .createSession
    · subst hop
      exact h.createSession hmapped
    · exact h.of_moves (h.moves env hsafe hop) hmapped

theorem inv_newClient (cfg : Config) : Inv cfg newClient 0 := by
  refine ⟨fun s => ?_, fun hs => ?_, nofun, by simp, fun _ => ⟨rfl, by simp⟩, nofun⟩
  · exact zero_le _
  · cases hs

/-- As long as no stream dies before its hook is installed and no hook inserts a session that has
been closed: the pool never holds a session with a stream, and none twice. An open session without
a stream is in the pool or some goroutine is about to use it, to put it back or to close it; a
closed one in the pool is about to be removed. So whenever nothing is in progress, the pool holds
the idle sessions. -/
theorem pooled_of_safe {cfg : Config} {st : State} {ts : List (Thread Kind Op)}
    (hrun : Runs (system cfg) Safe (newClient, []) (st, ts)) :
    (∀ s ∈ st.idleSession, ¬st.HasLiveStream s) ∧ st.idleSession.Nodup ∧
      (∀ s, st.Open s → ¬st.HasLiveStream s → s ∈ st.idleSession ∨
        ∃ t ∈ ts, ∃ op ∈ t.ops, op.holds s = true ∨ op.closes s = true) ∧
      (∀ s ∈ st.idleSession, st.Open s ∨ ∃ t ∈ ts, .removeIdle s ∈ t.ops) ∧
      (ts = [] → st.Pooled) := by
  have hinv : Inv cfg st (pending ts) := hrun.invariant (inv_invariant cfg) (inv_newClient cfg)
  have hfree : ∀ s ∈ st.idleSession, ¬st.HasLiveStream s := by
    intro s hs hlive
    have hone := hinv.owners_le s
    rw [st.hasLiveStream_iff] at hlive
    have hpos := count_pos_iff.mpr hs
    rw [owners] at hone
    omega
  have hnodup : st.idleSession.Nodup := by
    rw [List.nodup_iff_count_le_one]
    intro s
    have hone := hinv.owners_le s
    rw [owners] at hone
    omega
  have hidle : ∀ s, st.Open s → ¬st.HasLiveStream s → s ∈ st.idleSession ∨
      ∃ t ∈ ts, ∃ op ∈ t.ops, op.holds s = true ∨ op.closes s = true := by
    intro s hs hlive
    by_contra hnot
    obtain ⟨hpool, hts⟩ := not_or.mp hnot
    have hnone : ∀ op ∈ pending ts, ¬(op.holds s = true ∨ op.closes s = true) := by
      intro op hop hor
      obtain ⟨t, ht, hop⟩ := mem_pending.mp hop
      exact hts ⟨t, ht, op, hop, hor⟩
    have howned := hinv.owned hs
    rw [st.hasLiveStream_iff] at hlive
    rw [owners, count_eq_zero_of_not_mem hpool,
      countP_eq_zero.mpr fun op hop hh => hnone op hop (.inl hh),
      countP_eq_zero.mpr fun op hop hc => hnone op hop (.inr hc)] at howned
    omega
  have hopen : ∀ s ∈ st.idleSession, st.Open s ∨ ∃ t ∈ ts, .removeIdle s ∈ t.ops :=
    fun s hs => (hinv.pool s hs).imp_right mem_pending.mp
  refine ⟨hfree, hnodup, hidle, hopen, ?_⟩
  rintro rfl
  refine ⟨fun s hs hlive => ?_, fun s hs => ?_, hfree, hnodup⟩
  · simpa using hidle s hs hlive
  · simpa using hopen s hs

/-! ### Runs of two goroutines -/

def exampleConfig : Config := ⟨false, 30, 0⟩

/-- `n` operations in an environment where everything succeeds. -/
def good (n : Nat) : List Env := replicate n ⟨0, true⟩

/-- The client after one stream was opened. -/
def oneStream : State :=
  ⟨false, [], [0], [⟨false, [(1, 0)], 1, 0, true⟩], [⟨0, 1, false, true, true⟩]⟩

/-- The client after this stream was closed. -/
def oneIdle : State := ⟨false, [0], [0], [⟨false, [], 1, 0, true⟩], [⟨0, 1, true, false, true⟩]⟩

theorem runs_oneStream
    (hok : RunsOk (system exampleConfig) Ok (good 11) [.createStream] newClient) :
    Runs (system exampleConfig) Ok (newClient, []) (oneStream, []) :=
  Runs.thread _ Starts.createStream hok (by decide)

theorem runs_oneIdle (hok : RunsOk (system exampleConfig) Ok (good 7) [.finish 0 true] oneStream) :
    Runs (system exampleConfig) Ok (oneStream, []) (oneIdle, []) :=
  Runs.thread _ (Starts.streamClose (x := ⟨0, 1, false, true, true⟩) rfl rfl) hok (by decide)

theorem pooled_oneIdle : oneIdle.Pooled := by
  have hopened := @runs_oneStream Safe (by repeat' constructor)
  have hclosed := @runs_oneIdle Safe (by repeat' constructor)
  exact (pooled_of_safe (hopened.trans hclosed)).2.2.2.2 rfl

/-- The client whose second stream has died before its hook was installed. -/
def leaked : State :=
  ⟨false, [], [0], [⟨false, [], 2, 0, true⟩], [⟨0, 1, true, false, true⟩, ⟨0, 2, true, true, true⟩]⟩

/-- The client that has put a closed session into the pool. -/
def revived : State := ⟨false, [0], [], [⟨true, [], 1, 0, true⟩], [⟨0, 1, true, false, true⟩]⟩

/-- A FIN frame for the second stream arrives between `OpenStream` and `setDieHook`. -/
theorem runs_leaked : Runs (system exampleConfig) (fun _ _ => True) (oneIdle, []) (leaked, []) := by
  let opened : State :=
    ⟨false, [], [0], [⟨false, [(2, 1)], 2, 0, true⟩],
      [⟨0, 1, true, false, true⟩, ⟨0, 2, false, false, false⟩]⟩
  let died : State :=
    ⟨false, [], [0], [⟨false, [], 2, 0, true⟩],
      [⟨0, 1, true, false, true⟩, ⟨0, 2, true, false, false⟩]⟩
  have hcreate : Starts exampleConfig oneIdle [] ⟨.createStream, [.createStream]⟩ := .createStream
  have hfin : Starts exampleConfig opened [⟨.createStream, [.setDieHook 1]⟩]
      ⟨.recvLoop 0, [.recvFIN 0 2]⟩ := .recvFIN ⟨rfl, by simp⟩
  have h₁ : runOps (system exampleConfig) (good 6) [.createStream] oneIdle =
      (opened, [.setDieHook 1]) := by decide
  have h₂ : runOps (system exampleConfig) (good 2) [.recvFIN 0 2] opened = (died, []) := by decide
  have h₃ : runOps (system exampleConfig) (good 1) [.setDieHook 1] died = (leaked, []) := by decide
  exact Runs.interrupted _ _ _ (fun _ _ => trivial) hcreate h₁ hfin h₂ h₃

/-- The session is closed between the check of the hook and its insertion. -/
theorem runs_revived :
    Runs (system exampleConfig) (fun _ _ => True) (oneStream, []) (revived, []) := by
  let checked : State := ⟨false, [], [0], [⟨false, [], 1, 0, true⟩], [⟨0, 1, true, false, true⟩]⟩
  let closed : State := ⟨false, [], [], [⟨true, [], 1, 0, true⟩], [⟨0, 1, true, false, true⟩]⟩
  have hstream : Starts exampleConfig oneStream [] ⟨.other, [.finish 0 true]⟩ :=
    .streamClose (x := ⟨0, 1, false, true, true⟩) rfl rfl
  have hsession : Starts exampleConfig checked [⟨.other, [.insertIdle 0]⟩] ⟨.other, [.close 0]⟩ :=
    .sessionClose (by decide)
  have h₁ : runOps (system exampleConfig) (good 6) [.finish 0 true] oneStream =
      (checked, [.insertIdle 0]) := by decide
  have h₂ : runOps (system exampleConfig) (good 4) [.close 0] checked = (closed, []) := by decide
  have h₃ : runOps (system exampleConfig) (good 1) [.insertIdle 0] closed = (revived, []) := by
    decide
  exact Runs.interrupted _ _ _ (fun _ _ => trivial) hstream h₁ hsession h₂ h₃

/-- Two runs after which nothing is in progress. After the first, an open session without a stream
is not in the pool; after the second, a closed session is. -/
theorem pool_races :
    (∃ st, Runs (system exampleConfig) (fun _ _ => True) (newClient, []) (st, []) ∧
      st.Open 0 ∧ ¬st.HasLiveStream 0 ∧ 0 ∉ st.idleSession) ∧
    ∃ st, Runs (system exampleConfig) (fun _ _ => True) (newClient, []) (st, []) ∧
      ¬st.Open 0 ∧ 0 ∈ st.idleSession := by
  have hok := @runsOk_of_forall _ _ _ _ (system exampleConfig) (fun _ _ => True) fun _ _ => trivial
  have hopened := runs_oneStream (hok (good 11) [.createStream] newClient)
  have hclosed := runs_oneIdle (hok (good 7) [.finish 0 true] oneStream)
  refine ⟨⟨leaked, (hopened.trans hclosed).trans runs_leaked, rfl, ?_, by decide⟩,
    revived, hopened.trans runs_revived, ?_, by decide⟩
  · rw [hasLiveStream_iff]
    decide
  · rw [Open]
    decide

end Hako.AnyTLS.Client
