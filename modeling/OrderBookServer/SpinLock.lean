import Mathlib.Logic.Function.Basic
import OrderBookServer.Runs

/-!
Critical sections under a spin lock. Any number of threads call code that takes the lock, works on
what they share in steps of its own, and gives the lock back. Whatever the order of their steps, one
thread at most is inside, and the calls that have returned did what they do one after the other.
-/
namespace OrderBookServer

/-- Code under a lock: where a call of it starts, and what a step does to the shared state. The
step goes on or returns. -/
structure CriticalSection (σ κ ι ω : Type) where
  start : ι → κ
  step : σ → κ → σ × (κ ⊕ ω)

namespace CriticalSection

variable {σ κ ι ω : Type} (code : CriticalSection σ κ ι ω)

/-- From one point of a call to a later one, if nobody else works on the shared state. -/
inductive Leads (s₀ : σ) (l₀ : κ) : σ → κ → Prop
  | here : Leads s₀ l₀ s₀ l₀
  | step {s s' : σ} {l l' : κ} (h : Leads s₀ l₀ s l) (hs : code.step s l = (s', .inl l')) :
      Leads s₀ l₀ s' l'

/-- A whole call. -/
def Calls (s : σ) (i : ι) (s' : σ) (o : ω) : Prop :=
  ∃ t l, code.Leads s (code.start i) t l ∧ code.step t l = (s', .inr o)

/-- Calls one after the other. -/
inductive Serial (s₀ : σ) : List (ι × ω) → σ → Prop
  | nil : Serial s₀ [] s₀
  | call {calls : List (ι × ω)} {s s' : σ} {i : ι} {o : ω} (h : Serial s₀ calls s)
      (hc : code.Calls s i s' o) : Serial s₀ (calls ++ [(i, o)]) s'

end CriticalSection

namespace SpinLock

/-- Where a thread is. `leaving` has its result, but the guard is not destroyed. -/
inductive Phase (κ ι ω : Type)
  | idle
  | spinning (i : ι)
  | inside (i : ι) (l : κ)
  | leaving (i : ι) (o : ω)

def Phase.holds {κ ι ω : Type} : Phase κ ι ω → Prop
  | .inside _ _ => True
  | .leaving _ _ => True
  | _ => False

/-- The flag, what the threads share, where each of them is, and the calls that have returned. -/
structure State (τ σ κ ι ω : Type) where
  flag : Bool
  shared : σ
  phase : τ → Phase κ ι ω
  returned : List (τ × ι × ω)

inductive Action (τ ι : Type)
  | call (t : τ) (i : ι)
  | testAndSet (t : τ)
  | work (t : τ)
  | clear (t : τ)

section Steps

variable {τ σ κ ι ω : Type} [DecidableEq τ]

def State.goOn (s : State τ σ κ ι ω) (t : τ) (p : Phase κ ι ω) : State τ σ κ ι ω :=
  { s with phase := Function.update s.phase t p }

@[simp] theorem State.phase_goOn_self (s : State τ σ κ ι ω) (t : τ) (p : Phase κ ι ω) :
    (s.goOn t p).phase t = p := Function.update_self ..

@[simp] theorem State.phase_goOn_of_ne (s : State τ σ κ ι ω) {t t' : τ} (h : t' ≠ t)
    (p : Phase κ ι ω) : (s.goOn t p).phase t' = s.phase t' := Function.update_of_ne h ..

def init (s₀ : σ) : State τ σ κ ι ω := ⟨false, s₀, fun _ => .idle, []⟩

/-- A test that finds the flag set leaves the thread where it is. -/
def State.next (code : CriticalSection σ κ ι ω) (s : State τ σ κ ι ω) :
    Action τ ι → Option (State τ σ κ ι ω)
  | .call t i =>
    match s.phase t with
    | .idle => some (s.goOn t (.spinning i))
    | _ => none
  | .testAndSet t =>
    match s.phase t with
    | .spinning i =>
      if s.flag then some s else some { s.goOn t (.inside i (code.start i)) with flag := true }
    | _ => none
  | .work t =>
    match s.phase t with
    | .inside i l =>
      match code.step s.shared l with
      | (shared, .inl l') => some { s.goOn t (.inside i l') with shared := shared }
      | (shared, .inr o) => some { s.goOn t (.leaving i o) with shared := shared }
    | _ => none
  | .clear t =>
    match s.phase t with
    | .leaving i o =>
      some { s.goOn t .idle with flag := false, returned := s.returned ++ [(t, i, o)] }
    | _ => none

/-- The steps by their effect. -/
inductive Move (code : CriticalSection σ κ ι ω) (s : State τ σ κ ι ω) : State τ σ κ ι ω → Prop
  | call {t : τ} (i : ι) (hp : s.phase t = .idle) : Move code s (s.goOn t (.spinning i))
  | spin : Move code s s
  | take {t : τ} {i : ι} (hp : s.phase t = .spinning i) (hflag : s.flag = false) :
      Move code s { s.goOn t (.inside i (code.start i)) with flag := true }
  | work {t : τ} {i : ι} {l l' : κ} {shared : σ} (hp : s.phase t = .inside i l)
      (hs : code.step s.shared l = (shared, .inl l')) :
      Move code s { s.goOn t (.inside i l') with shared := shared }
  | returns {t : τ} {i : ι} {l : κ} {o : ω} {shared : σ} (hp : s.phase t = .inside i l)
      (hs : code.step s.shared l = (shared, .inr o)) :
      Move code s { s.goOn t (.leaving i o) with shared := shared }
  | clear {t : τ} {i : ι} {o : ω} (hp : s.phase t = .leaving i o) :
      Move code s { s.goOn t .idle with flag := false, returned := s.returned ++ [(t, i, o)] }

end Steps

section Invariant

variable {τ σ κ ι ω : Type} {code : CriticalSection σ κ ι ω} {s₀ base : σ}
  {s s' : State τ σ κ ι ω}

/-- The flag is set exactly while a thread holds the lock, and that thread is alone. -/
structure Guarded (s : State τ σ κ ι ω) : Prop where
  alone : ∀ t t', (s.phase t).holds → (s.phase t').holds → t = t'
  flag_iff : s.flag = true ↔ ∃ t, (s.phase t).holds

/-- The calls that have returned came one after the other, and `base` is what they left. -/
structure Serves (code : CriticalSection σ κ ι ω) (s₀ : σ) (s : State τ σ κ ι ω) (base : σ) :
    Prop where
  serial : code.Serial s₀ (s.returned.map Prod.snd) base
  free : s.flag = false → s.shared = base
  inside : ∀ t i l, s.phase t = .inside i l → code.Leads base (code.start i) s.shared l
  leaving : ∀ t i o, s.phase t = .leaving i o → code.Calls base i s.shared o

theorem guarded_init : Guarded (init s₀ : State τ σ κ ι ω) where
  alone _ _ ht := ht.elim
  flag_iff := ⟨nofun, fun ⟨_, ht⟩ => ht.elim⟩

theorem serves_init : Serves code s₀ (init s₀ : State τ σ κ ι ω) s₀ where
  serial := .nil
  free _ := rfl
  inside _ _ _ h := nomatch h
  leaving _ _ _ h := nomatch h

variable [DecidableEq τ]

theorem move_of_next {a : Action τ ι} (h : s.next code a = some s') : Move code s s' := by
  cases a with
  | call t i =>
    cases hp : s.phase t with
    | idle =>
      simp only [State.next, hp, Option.some.injEq] at h
      exact h ▸ .call i hp
    | _ => simp [State.next, hp] at h
  | testAndSet t =>
    cases hp : s.phase t with
    | spinning i =>
      simp only [State.next, hp] at h
      split at h
      · exact Option.some.inj h ▸ .spin
      · rename_i hflag
        exact Option.some.inj h ▸ .take hp (Bool.eq_false_iff.mpr hflag)
    | _ => simp [State.next, hp] at h
  | work t =>
    cases hp : s.phase t with
    | inside i l =>
      simp only [State.next, hp] at h
      split at h
      · rename_i hs
        exact Option.some.inj h ▸ .work hp hs
      · rename_i hs
        exact Option.some.inj h ▸ .returns hp hs
    | _ => simp [State.next, hp] at h
  | clear t =>
    cases hp : s.phase t with
    | leaving i o =>
      simp only [State.next, hp, Option.some.injEq] at h
      exact h ▸ .clear hp
    | _ => simp [State.next, hp] at h

/-- A thread that holds the lock and goes on holding it changes nothing for the others. -/
theorem Guarded.keep (h : Guarded s) {t : τ} {p : Phase κ ι ω} (ht : (s.phase t).holds)
    (hp : p.holds) (hphase : s'.phase = Function.update s.phase t p) (hflag : s'.flag = s.flag) :
    Guarded s' := by
  have hiff : ∀ t', (s'.phase t').holds ↔ (s.phase t').holds := by
    intro t'
    rw [hphase]
    by_cases heq : t' = t
    · rw [heq, Function.update_self]
      exact iff_of_true hp ht
    · rw [Function.update_of_ne heq]
  refine ⟨fun t₁ t₂ h₁ h₂ => h.alone t₁ t₂ ((hiff t₁).mp h₁) ((hiff t₂).mp h₂), ?_⟩
  rw [hflag, h.flag_iff]
  exact exists_congr fun t' => (hiff t').symm

theorem Guarded.move (h : Guarded s) (hmove : Move code s s') : Guarded s' := by
  cases hmove with
  | @call t i hp =>
    have hiff : ∀ t', ((s.goOn t (.spinning i)).phase t').holds ↔ (s.phase t').holds := by
      intro t'
      by_cases heq : t' = t
      · rw [heq, hp, State.phase_goOn_self]
        exact Iff.rfl
      · rw [State.phase_goOn_of_ne s heq]
    refine ⟨fun t₁ t₂ h₁ h₂ => h.alone t₁ t₂ ((hiff t₁).mp h₁) ((hiff t₂).mp h₂), ?_⟩
    exact h.flag_iff.trans (exists_congr fun t' => (hiff t').symm)
  | spin => exact h
  | @take t i hp hflag =>
    have hnobody : ∀ t', ¬ (s.phase t').holds := fun t' ht' => by
      rw [h.flag_iff.mpr ⟨t', ht'⟩] at hflag
      cases hflag
    have honly : ∀ t', ((s.goOn t (.inside i (code.start i))).phase t').holds → t' = t := by
      intro t' ht'
      by_contra heq
      rw [State.phase_goOn_of_ne s heq] at ht'
      exact hnobody t' ht'
    refine ⟨fun t₁ t₂ h₁ h₂ => (honly t₁ h₁).trans (honly t₂ h₂).symm, iff_of_true rfl ⟨t, ?_⟩⟩
    show ((s.goOn t (.inside i (code.start i))).phase t).holds
    rw [State.phase_goOn_self]
    trivial
  | @work t i l l' shared hp hs =>
    exact h.keep (p := .inside i l') (by rw [hp]; trivial) trivial rfl rfl
  | @returns t i l o shared hp hs =>
    exact h.keep (p := .leaving i o) (by rw [hp]; trivial) trivial rfl rfl
  | @clear t i o hp =>
    have hnobody : ∀ t', ¬ ((s.goOn t .idle).phase t').holds := by
      intro t' ht'
      by_cases heq : t' = t
      · rw [heq, State.phase_goOn_self] at ht'
        exact ht'
      · rw [State.phase_goOn_of_ne s heq] at ht'
        exact heq (h.alone t' t ht' (by rw [hp]; trivial))
    exact ⟨fun t₁ t₂ h₁ => absurd h₁ (hnobody t₁), iff_of_false Bool.false_ne_true
      fun ⟨t', ht'⟩ => hnobody t' ht'⟩

theorem Guarded.not_holds (h : Guarded s) {t t' : τ} (ht : (s.phase t).holds) (hne : t' ≠ t)
    (p : Phase κ ι ω) : ¬ ((s.goOn t p).phase t').holds := by
  rw [State.phase_goOn_of_ne s hne]
  exact fun ht' => hne (h.alone t' t ht' ht)

omit [DecidableEq τ] in
/-- Where no other thread holds the lock, only one thread counts. -/
theorem Serves.of_alone {t : τ} {p : Phase κ ι ω} (hp : s.phase t = p)
    (hothers : ∀ t', t' ≠ t → ¬ (s.phase t').holds)
    (hserial : code.Serial s₀ (s.returned.map Prod.snd) base)
    (hfree : s.flag = false → s.shared = base)
    (hinside : ∀ i l, p = .inside i l → code.Leads base (code.start i) s.shared l)
    (hleaving : ∀ i o, p = .leaving i o → code.Calls base i s.shared o) :
    Serves code s₀ s base := by
  refine ⟨hserial, hfree, fun t' i l hat => ?_, fun t' i o hat => ?_⟩
  · by_cases heq : t' = t
    · exact hinside i l (hp.symm.trans (heq ▸ hat))
    · exact absurd (by rw [hat]; trivial) (hothers t' heq)
  · by_cases heq : t' = t
    · exact hleaving i o (hp.symm.trans (heq ▸ hat))
    · exact absurd (by rw [hat]; trivial) (hothers t' heq)

/-- The thread inside works on what the calls before it have left. -/
theorem Serves.move (h : Serves code s₀ s base) (hguarded : Guarded s)
    (hmove : Move code s s') : ∃ base', Serves code s₀ s' base' := by
  cases hmove with
  | @call t i hp =>
    refine ⟨base, h.serial, h.free, fun t' i' l hat => ?_, fun t' i' o hat => ?_⟩
    · by_cases heq : t' = t
      · rw [heq, State.phase_goOn_self] at hat
        cases hat
      · exact h.inside t' i' l ((State.phase_goOn_of_ne s heq _).symm.trans hat)
    · by_cases heq : t' = t
      · rw [heq, State.phase_goOn_self] at hat
        cases hat
      · exact h.leaving t' i' o ((State.phase_goOn_of_ne s heq _).symm.trans hat)
  | spin => exact ⟨base, h⟩
  | @take t i hp hflag =>
    refine ⟨base, .of_alone (State.phase_goOn_self s t _) (fun t' hne => ?_) h.serial nofun
      (fun i' l hat => ?_) nofun⟩
    · show ¬ ((s.goOn t (.inside i (code.start i))).phase t').holds
      rw [State.phase_goOn_of_ne s hne]
      intro ht'
      rw [hguarded.flag_iff.mpr ⟨t', ht'⟩] at hflag
      cases hflag
    · cases hat
      show code.Leads base (code.start i) s.shared (code.start i)
      rw [h.free hflag]
      exact .here
  | @work t i l l' shared hp hs =>
    have hholds : (s.phase t).holds := by rw [hp]; trivial
    refine ⟨base, .of_alone (State.phase_goOn_self s t _)
      (fun t' hne => hguarded.not_holds hholds hne _) h.serial (fun hfree => ?_)
      (fun i' k hat => ?_) nofun⟩
    · exact absurd ((hguarded.flag_iff.mpr ⟨t, hholds⟩).symm.trans hfree) nofun
    · cases hat
      exact .step (h.inside t i l hp) hs
  | @returns t i l o shared hp hs =>
    have hholds : (s.phase t).holds := by rw [hp]; trivial
    refine ⟨base, .of_alone (State.phase_goOn_self s t _)
      (fun t' hne => hguarded.not_holds hholds hne _) h.serial (fun hfree => ?_) nofun
      (fun i' o' hat => ?_)⟩
    · exact absurd ((hguarded.flag_iff.mpr ⟨t, hholds⟩).symm.trans hfree) nofun
    · cases hat
      exact ⟨s.shared, l, h.inside t i l hp, hs⟩
  | @clear t i o hp =>
    have hholds : (s.phase t).holds := by rw [hp]; trivial
    refine ⟨s.shared, .of_alone (State.phase_goOn_self s t _)
      (fun t' hne => hguarded.not_holds hholds hne _) ?_ (fun _ => rfl) nofun nofun⟩
    rw [List.map_append]
    exact .call h.serial (h.leaving t i o hp)

/-- In every run the lock is held by one thread at most, and what has returned came in turn. -/
theorem exists_serves (h : Runs.Reaches (fun s a => s.next code a) (fun _ _ => True)
    (init s₀ : State τ σ κ ι ω) s) : Guarded s ∧ ∃ base, Serves code s₀ s base := by
  have hstep : ∀ (s : State τ σ κ ι ω) a s', (Guarded s ∧ ∃ base, Serves code s₀ s base) → True →
      s.next code a = some s' → Guarded s' ∧ ∃ base, Serves code s₀ s' base := by
    intro s a s' hinv _ hs
    obtain ⟨hguarded, base, hserves⟩ := hinv
    exact ⟨hguarded.move (move_of_next hs), hserves.move hguarded (move_of_next hs)⟩
  obtain ⟨hguarded, hserves⟩ := h.invariant hstep ⟨guarded_init, s₀, serves_init⟩
  exact ⟨hguarded, hserves⟩

/-- While a thread is not idle, some thread gets on: the one that holds the lock, or one that waits
for a lock that is free. -/
theorem Guarded.exists_turn (h : Guarded s) {t : τ} (ht : s.phase t ≠ .idle) :
    ∃ t' a s', (a = Action.testAndSet t' ∧ s.flag = false ∨ a = .work t' ∨ a = .clear t') ∧
      s.next code a = some s' := by
  by_cases hheld : ∃ t', (s.phase t').holds
  · obtain ⟨t', ht'⟩ := hheld
    cases hp : s.phase t' with
    | idle => rw [hp] at ht'; exact ht'.elim
    | spinning i => rw [hp] at ht'; exact ht'.elim
    | inside i l =>
      obtain ⟨s', hs⟩ : ∃ s', s.next code (.work t') = some s' := by
        simp only [State.next, hp]
        rcases code.step s.shared l with ⟨shared, l' | o⟩
        · exact ⟨_, rfl⟩
        · exact ⟨_, rfl⟩
      exact ⟨t', .work t', s', .inr (.inl rfl), hs⟩
    | leaving i o =>
      obtain ⟨s', hs⟩ : ∃ s', s.next code (.clear t') = some s' := by
        simp only [State.next, hp]
        exact ⟨_, rfl⟩
      exact ⟨t', .clear t', s', .inr (.inr rfl), hs⟩
  · have hflag : s.flag = false := Bool.eq_false_iff.mpr fun hset => hheld (h.flag_iff.mp hset)
    cases hp : s.phase t with
    | idle => exact absurd hp ht
    | spinning i =>
      obtain ⟨s', hs⟩ : ∃ s', s.next code (.testAndSet t) = some s' := by
        simp only [State.next, hp, hflag]
        exact ⟨_, rfl⟩
      exact ⟨t, .testAndSet t, s', .inl ⟨rfl, hflag⟩, hs⟩
    | inside i l => exact absurd ⟨t, by rw [hp]; trivial⟩ hheld
    | leaving i o => exact absurd ⟨t, by rw [hp]; trivial⟩ hheld

end Invariant

end SpinLock

end OrderBookServer
