import Mathlib

/-!
# Threads of atomic operations

A system of threads over a shared state. A thread is the list of the atomic operations it has
still to do. An operation changes the state and is replaced by the operations it leads to, so that
a call is an operation that leads to those of the callee.

For an invariant it does not matter which thread an operation belongs to: it is stated over the
state and the multiset of all operations that are still to be done.
-/

namespace Hako.Threads

variable {σ ε κ α : Type*}

/-- A thread: what it was started for, and the operations it has still to do. -/
structure Thread (κ α : Type*) where
  kind : κ
  ops : List α

/-- What operations do, for every choice `ε` of the environment, and which threads can start. -/
structure System (σ ε κ α : Type*) where
  exec : ε → α → σ → σ × List α
  Starts : σ → List (Thread κ α) → Thread κ α → Prop

/-- The operations that are still to be done. -/
def pending (ts : List (Thread κ α)) : Multiset α := (ts.map fun t => (t.ops : Multiset α)).sum

variable {ts : List (Thread κ α)} {ops : List α} {st : σ} {k : κ}

@[simp]
theorem pending_nil : pending ([] : List (Thread κ α)) = 0 := rfl

@[simp]
theorem pending_cons (t : Thread κ α) (ts : List (Thread κ α)) :
    pending (t :: ts) = t.ops + pending ts := by
  simp [pending]

@[simp]
theorem pending_append (ts us : List (Thread κ α)) :
    pending (ts ++ us) = pending ts + pending us := by
  simp [pending]

theorem mem_pending {op : α} : op ∈ pending ts ↔ ∃ t ∈ ts, op ∈ t.ops := by
  induction ts with
  | nil => simp
  | cons t ts ih => simp [ih]

/-- A step of the system in which operations are done only where `Ok` allows it. -/
inductive Step (S : System σ ε κ α) (Ok : σ → α → Prop) :
    σ × List (Thread κ α) → σ × List (Thread κ α) → Prop
  | start {st : σ} {ts : List (Thread κ α)} {t : Thread κ α} :
      S.Starts st ts t → Step S Ok (st, ts) (st, t :: ts)
  | exec {st : σ} {ts us : List (Thread κ α)} {k : κ} {op : α} {rest : List α} (e : ε) :
      Ok st op →
      Step S Ok (st, ts ++ ⟨k, op :: rest⟩ :: us)
        ((S.exec e op st).1, ts ++ ⟨k, (S.exec e op st).2 ++ rest⟩ :: us)
  | done {st : σ} {ts us : List (Thread κ α)} {k : κ} :
      Step S Ok (st, ts ++ ⟨k, []⟩ :: us) (st, ts ++ us)

/-- The runs of the system. -/
def Runs (S : System σ ε κ α) (Ok : σ → α → Prop) :
    σ × List (Thread κ α) → σ × List (Thread κ α) → Prop :=
  Relation.ReflTransGen (Step S Ok)

variable {S : System σ ε κ α} {Ok : σ → α → Prop}

/-- An invariant of the state and of the operations still to be done. -/
structure Invariant (S : System σ ε κ α) (Ok : σ → α → Prop) (Inv : σ → Multiset α → Prop) :
    Prop where
  start : ∀ {st ts t}, S.Starts st ts t → Inv st (pending ts) → Inv st (t.ops + pending ts)
  exec : ∀ {e op st m}, Ok st op → Inv st (op ::ₘ m) →
    Inv (S.exec e op st).1 ((S.exec e op st).2 + m)

theorem Step.invariant {Inv : σ → Multiset α → Prop} (hinv : Invariant S Ok Inv)
    {c c' : σ × List (Thread κ α)} (h : Step S Ok c c') (hc : Inv c.1 (pending c.2)) :
    Inv c'.1 (pending c'.2) := by
  cases h with
  | start h => simpa using hinv.start h hc
  | @exec st ts us k op rest e hok =>
    have hsplit : ∀ ops : List α, pending (ts ++ ⟨k, ops ++ rest⟩ :: us) =
        ops + (rest + pending ts + pending us) := by
      intro ops
      simp only [pending_append, pending_cons, ← Multiset.coe_add]
      ac_rfl
    have hbefore : pending (ts ++ ⟨k, op :: rest⟩ :: us) =
        op ::ₘ (rest + pending ts + pending us) := by
      simpa using hsplit [op]
    rw [hbefore] at hc
    rw [hsplit]
    exact hinv.exec hok hc
  | done => simpa using hc

theorem Runs.invariant {Inv : σ → Multiset α → Prop} (hinv : Invariant S Ok Inv)
    {c c' : σ × List (Thread κ α)} (h : Runs S Ok c c') (hc : Inv c.1 (pending c.2)) :
    Inv c'.1 (pending c'.2) := by
  induction h with
  | refl => exact hc
  | tail _ hstep ih => exact hstep.invariant hinv ih

/-- One operation after the other, as long as there are choices of the environment. -/
def runOps (S : System σ ε κ α) : List ε → List α → σ → σ × List α
  | e :: es, op :: ops, st => runOps S es ((S.exec e op st).2 ++ ops) (S.exec e op st).1
  | _, ops, st => (st, ops)

/-- The operations that `runOps` does are allowed where it does them. -/
def RunsOk (S : System σ ε κ α) (Ok : σ → α → Prop) : List ε → List α → σ → Prop
  | e :: es, op :: ops, st =>
    Ok st op ∧ RunsOk S Ok es ((S.exec e op st).2 ++ ops) (S.exec e op st).1
  | _, _, _ => True

theorem runsOk_of_forall (h : ∀ st op, Ok st op) (es : List ε) (ops : List α) (st : σ) :
    RunsOk S Ok es ops st := by
  fun_induction RunsOk S Ok es ops st with
  | case1 e es op ops st ih => exact ⟨h st op, ih⟩
  | case2 => trivial

/-- The first thread runs alone. -/
theorem Runs.runOps {es : List ε} {ops' : List α} {st' : σ} (hok : RunsOk S Ok es ops st)
    (h : runOps S es ops st = (st', ops')) :
    Runs S Ok (st, ⟨k, ops⟩ :: ts) (st', ⟨k, ops'⟩ :: ts) := by
  fun_induction Threads.runOps S es ops st with
  | case1 e es op ops st ih =>
    have hstep : Step S Ok (st, [] ++ ⟨k, op :: ops⟩ :: ts) _ := .exec e hok.1
    exact (ih hok.2 h).head hstep
  | case2 =>
    cases h
    exact .refl

/-- A thread that starts, runs alone and ends. -/
theorem Runs.thread (es : List ε) {st' : σ} (hstart : S.Starts st ts ⟨k, ops⟩)
    (hok : RunsOk S Ok es ops st) (h : Threads.runOps S es ops st = (st', [])) :
    Runs S Ok (st, ts) (st', ts) := by
  have hdone : Step S Ok (st', [] ++ ⟨k, []⟩ :: ts) (st', [] ++ ts) := .done
  exact (Relation.ReflTransGen.head (.start hstart) (Runs.runOps hok h)).tail hdone

/-- A thread that is interrupted by another one. -/
theorem Runs.interrupted {l : κ} (es es' es'' : List ε) {ops₁ ops' : List α} {st₁ st₂ st₃ : σ}
    (hok : ∀ st op, Ok st op) (hstart : S.Starts st ts ⟨k, ops⟩)
    (h₁ : Threads.runOps S es ops st = (st₁, ops₁))
    (hstart' : S.Starts st₁ (⟨k, ops₁⟩ :: ts) ⟨l, ops'⟩)
    (h₂ : Threads.runOps S es' ops' st₁ = (st₂, []))
    (h₃ : Threads.runOps S es'' ops₁ st₂ = (st₃, [])) : Runs S Ok (st, ts) (st₃, ts) := by
  have hok := runsOk_of_forall (S := S) hok
  have hdone : Step S Ok (st₃, [] ++ ⟨k, []⟩ :: ts) (st₃, [] ++ ts) := .done
  have hfirst : Runs S Ok (st, ts) (st₁, ⟨k, ops₁⟩ :: ts) :=
    Relation.ReflTransGen.head (.start hstart) (Runs.runOps (hok _ _ _) h₁)
  have hsecond : Runs S Ok (st₁, ⟨k, ops₁⟩ :: ts) (st₂, ⟨k, ops₁⟩ :: ts) :=
    Runs.thread es' hstart' (hok _ _ _) h₂
  exact (hfirst.trans (hsecond.trans (Runs.runOps (hok _ _ _) h₃))).tail hdone

end Hako.Threads
