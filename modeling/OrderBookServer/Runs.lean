import Mathlib.Data.List.Infix

/-!
Runs of a system that takes messages one at a time and may fault.
A step either yields the next state or stops the run with a fault. The rules
lift what one step preserves to whole runs: invariants, totality under a
condition on each step, equivalence of two step conditions, and simulation.
-/
namespace OrderBookServer.Runs

variable {σ τ μ ε : Type}

def run (step : σ → μ → Except ε σ) : σ → List μ → Except ε σ
  | s, [] => .ok s
  | s, m :: ms =>
    match step s m with
    | .ok s' => run step s' ms
    | .error e => .error e

/-- Each message meets `p` in the state it is applied to, up to the first fault. -/
def Along (step : σ → μ → Except ε σ) (p : σ → μ → Prop) : σ → List μ → Prop
  | _, [] => True
  | s, m :: ms => p s m ∧ ∀ s', step s m = .ok s' → Along step p s' ms

variable {step : σ → μ → Except ε σ} {p q : σ → μ → Prop} {inv : σ → Prop}

@[simp] theorem run_nil (s : σ) : run step s [] = .ok s := rfl

theorem run_cons_of_ok {s s' : σ} {m : μ} (h : step s m = .ok s') (ms : List μ) :
    run step s (m :: ms) = run step s' ms := by
  simp only [run, h]

theorem run_cons_ok {s t : σ} {m : μ} {ms : List μ} (h : run step s (m :: ms) = .ok t) :
    ∃ s', step s m = .ok s' ∧ run step s' ms = .ok t := by
  cases hs : step s m with
  | ok s' => exact ⟨s', rfl, by simpa only [run, hs] using h⟩
  | error e => simp [run, hs] at h

/-- What one step preserves, a run preserves. -/
theorem run_invariant (hstep : ∀ s m s', inv s → step s m = .ok s' → inv s')
    {s t : σ} {ms : List μ} (hs : inv s) (h : run step s ms = .ok t) : inv t := by
  induction ms generalizing s with
  | nil =>
    cases h
    exact hs
  | cons m ms ih =>
    obtain ⟨s', hok, hrun⟩ := run_cons_ok h
    exact ih (hstep s m s' hs hok) hrun

/-- A run of messages that cannot fault keeps the invariant to its end. -/
theorem run_total {ok : μ → Prop}
    (hstep : ∀ s m, inv s → ok m → ∃ s', step s m = .ok s' ∧ inv s')
    {s : σ} {ms : List μ} (hs : inv s) (hms : ∀ m ∈ ms, ok m) :
    ∃ t, run step s ms = .ok t ∧ inv t := by
  induction ms generalizing s with
  | nil => exact ⟨s, rfl, hs⟩
  | cons m ms ih =>
    obtain ⟨s', hok, hs'⟩ := hstep s m hs (hms m (List.mem_cons_self ..))
    obtain ⟨t, hrun, ht⟩ := ih hs' (fun n hn => hms n (List.mem_cons_of_mem m hn))
    exact ⟨t, by rw [run_cons_of_ok hok, hrun], ht⟩

/-- Two step conditions that agree wherever the invariant holds agree along runs. -/
theorem along_iff (inv : σ → Prop) (ok : μ → Prop)
    (hinv : ∀ s m s', inv s → ok m → p s m → step s m = .ok s' → inv s')
    (hiff : ∀ s m, inv s → ok m → (p s m ↔ q s m)) {s : σ} (hs : inv s) {ms : List μ}
    (hms : ∀ m ∈ ms, ok m) : Along step p s ms ↔ Along step q s ms := by
  induction ms generalizing s with
  | nil => exact Iff.rfl
  | cons m ms ih =>
    have hm := hms m (List.mem_cons_self ..)
    have htail : ∀ n ∈ ms, ok n := fun n hn => hms n (List.mem_cons_of_mem m hn)
    constructor
    · rintro ⟨hp, hrest⟩
      refine ⟨(hiff s m hs hm).mp hp, fun s' hok => ?_⟩
      exact (ih (hinv s m s' hs hm hp hok) htail).mp (hrest s' hok)
    · rintro ⟨hq, hrest⟩
      have hp := (hiff s m hs hm).mpr hq
      refine ⟨hp, fun s' hok => ?_⟩
      exact (ih (hinv s m s' hs hm hp hok) htail).mpr (hrest s' hok)

/-- What a step preserves that meets a condition, a run of such steps preserves. -/
theorem run_invariant_along (ok : μ → Prop)
    (hstep : ∀ s m s', inv s → ok m → p s m → step s m = .ok s' → inv s')
    {s t : σ} {ms : List μ} (hs : inv s) (hms : ∀ m ∈ ms, ok m) (hp : Along step p s ms)
    (h : run step s ms = .ok t) : inv t := by
  induction ms generalizing s with
  | nil =>
    cases h
    exact hs
  | cons m ms ih =>
    obtain ⟨s', hok, hrun⟩ := run_cons_ok h
    have hs' := hstep s m s' hs (hms m (List.mem_cons_self ..)) hp.1 hok
    exact ih hs' (fun n hn => hms n (List.mem_cons_of_mem m hn)) (hp.2 s' hok) hrun

/-- If a step reaches a good state exactly when it meets `q`, then every state of a
run is good exactly when every step of it meets `q`. -/
theorem forall_prefix_iff_along (inv : σ → Prop) {good : σ → Prop} (ok : μ → Prop)
    (hstep : ∀ s m, inv s → ok m → ∃ s', step s m = .ok s' ∧ inv s')
    (hgood : ∀ s m s', inv s → ok m → good s → step s m = .ok s' → (good s' ↔ q s m))
    {s : σ} (hs : inv s) (hg : good s) {ms : List μ} (hms : ∀ m ∈ ms, ok m) :
    (∀ pre s', pre <+: ms → run step s pre = .ok s' → good s') ↔ Along step q s ms := by
  induction ms generalizing s with
  | nil =>
    refine ⟨fun _ => trivial, fun _ pre s' hpre hrun => ?_⟩
    cases List.prefix_nil.mp hpre
    cases hrun
    exact hg
  | cons m ms ih =>
    have hm := hms m (List.mem_cons_self ..)
    obtain ⟨t, hok, ht⟩ := hstep s m hs hm
    have hnext : ∀ s', step s m = .ok s' → s' = t := by
      intro s' hs'
      rw [hok] at hs'
      cases hs'
      rfl
    have hiff := hgood s m t hs hm hg hok
    have htail : ∀ n ∈ ms, ok n := fun n hn => hms n (List.mem_cons_of_mem m hn)
    constructor
    · intro h
      have hgt : good t := h [m] t ⟨ms, rfl⟩ (by rw [run_cons_of_ok hok, run_nil])
      refine ⟨hiff.mp hgt, fun s' hs' => ?_⟩
      cases hnext s' hs'
      refine (ih ht hgt htail).mp fun pre u hpre hrun => ?_
      refine h (m :: pre) u (List.cons_prefix_cons.mpr ⟨rfl, hpre⟩) ?_
      rw [run_cons_of_ok hok, hrun]
    · rintro ⟨hq, hrest⟩ pre u hpre hrun
      cases pre with
      | nil =>
        cases hrun
        exact hg
      | cons n pre =>
        obtain ⟨rfl, hpre'⟩ := List.cons_prefix_cons.mp hpre
        rw [run_cons_of_ok hok] at hrun
        exact (ih ht (hiff.mpr hq) htail).mpr (hrest t hok) pre u hpre' hrun

/-- If a dropped message goes unnoticed exactly when it is quiet, and then leaves the
state, then no prefix of a run notices the dropping exactly when all are quiet. -/
theorem same_without_iff_along (inv : σ → Prop) (ok : μ → Prop) (drop : μ → Bool)
    {same : σ → σ → Prop} {quiet : σ → μ → Prop} (hrefl : ∀ s, same s s)
    (hstep : ∀ s m, inv s → ok m → ∃ s', step s m = .ok s' ∧ inv s')
    (hkept : ∀ s m, drop m = false → quiet s m)
    (hquiet : ∀ s m s', inv s → ok m → drop m → step s m = .ok s' → same s' s → quiet s m)
    (hstill : ∀ s m, inv s → drop m → quiet s m → step s m = .ok s)
    {s : σ} (hs : inv s) {ms : List μ} (hms : ∀ m ∈ ms, ok m) :
    (∀ pre, pre <+: ms → ∃ t t', run step s pre = .ok t ∧
      run step s (pre.filter (fun m => !drop m)) = .ok t' ∧ same t t') ↔
    Along step quiet s ms := by
  induction ms generalizing s with
  | nil =>
    refine ⟨fun _ => trivial, fun _ pre hpre => ?_⟩
    cases List.prefix_nil.mp hpre
    exact ⟨s, s, rfl, rfl, hrefl s⟩
  | cons m ms ih =>
    have hm := hms m (List.mem_cons_self ..)
    have htail : ∀ n ∈ ms, ok n := fun n hn => hms n (List.mem_cons_of_mem m hn)
    obtain ⟨u, hu, hinv⟩ := hstep s m hs hm
    have hnext : ∀ s', step s m = .ok s' → s' = u := by
      intro s' hs'
      rw [hu] at hs'
      cases hs'
      rfl
    cases hdrop : drop m with
    | false =>
      have hfilter : ∀ pre, run step s ((m :: pre).filter (fun m => !drop m)) =
          run step u (pre.filter (fun m => !drop m)) := by
        intro pre
        rw [List.filter_cons_of_pos (by simp [hdrop]), run_cons_of_ok hu]
      constructor
      · intro h
        refine ⟨hkept s m hdrop, fun s' hs' => ?_⟩
        cases hnext s' hs'
        refine (ih hinv htail).mp fun pre hpre => ?_
        have hsame := h (m :: pre) (List.cons_prefix_cons.mpr ⟨rfl, hpre⟩)
        rwa [run_cons_of_ok hu, hfilter] at hsame
      · rintro ⟨_, hrest⟩ pre hpre
        cases pre with
        | nil => exact ⟨s, s, rfl, rfl, hrefl s⟩
        | cons n pre =>
          obtain ⟨rfl, hpre'⟩ := List.cons_prefix_cons.mp hpre
          rw [run_cons_of_ok hu, hfilter]
          exact (ih hinv htail).mpr (hrest u hu) pre hpre'
    | true =>
      have hfilter : ∀ pre, (m :: pre).filter (fun m => !drop m) =
          pre.filter (fun m => !drop m) := fun pre => List.filter_cons_of_neg (by simp [hdrop])
      constructor
      · intro h
        obtain ⟨t, t', ht, ht', hsame⟩ := h [m] ⟨ms, rfl⟩
        rw [run_cons_of_ok hu, run_nil] at ht
        rw [hfilter, List.filter_nil, run_nil] at ht'
        cases ht
        cases ht'
        have hq := hquiet s m u hs hm hdrop hu hsame
        have hsu := hnext s (hstill s m hs hdrop hq)
        refine ⟨hq, fun s' hs' => ?_⟩
        cases (hnext s' hs').trans hsu.symm
        refine (ih hs htail).mp fun pre hpre => ?_
        have hpair := h (m :: pre) (List.cons_prefix_cons.mpr ⟨rfl, hpre⟩)
        rwa [run_cons_of_ok hs', hfilter] at hpair
      · rintro ⟨hq, hrest⟩ pre hpre
        have hstay := hstill s m hs hdrop hq
        cases pre with
        | nil => exact ⟨s, s, rfl, rfl, hrefl s⟩
        | cons n pre =>
          obtain ⟨rfl, hpre'⟩ := List.cons_prefix_cons.mp hpre
          rw [run_cons_of_ok hstay, hfilter]
          exact (ih hs htail).mpr (hrest s hstay) pre hpre'

/-- Each message meets `ok` in the abstract state it is applied to. -/
def Feeds (astep : τ → μ → τ) (ok : τ → μ → Prop) : τ → List μ → Prop
  | _, [] => True
  | a, m :: ms => ok a m ∧ Feeds astep ok (astep a m) ms

instance (astep : τ → μ → τ) (ok : τ → μ → Prop) [∀ a m, Decidable (ok a m)] (a : τ)
    (ms : List μ) : Decidable (Feeds astep ok a ms) :=
  match ms with
  | [] => instDecidableTrue
  | m :: ms =>
    have := instDecidableFeeds astep ok (astep a m) ms
    instDecidableAnd

/-- Forward simulation: `R` is kept by each pair of steps, so it holds after each message. -/
theorem run_simulation (R : σ → τ → Prop) {astep : τ → μ → τ} {ok : τ → μ → Prop}
    (hstep : ∀ s a m, R s a → ok a m → ∃ s', step s m = .ok s' ∧ R s' (astep a m))
    {s : σ} {a : τ} {ms pre : List μ} (hR : R s a) (hok : Feeds astep ok a ms)
    (hpre : pre <+: ms) : ∃ s', run step s pre = .ok s' ∧ R s' (pre.foldl astep a) := by
  induction ms generalizing s a pre with
  | nil =>
    cases List.prefix_nil.mp hpre
    exact ⟨s, rfl, hR⟩
  | cons m ms ih =>
    cases pre with
    | nil => exact ⟨s, rfl, hR⟩
    | cons n pre =>
      obtain ⟨rfl, hpre'⟩ := List.cons_prefix_cons.mp hpre
      obtain ⟨s', hs', hR'⟩ := hstep s a n hR hok.1
      obtain ⟨t, hrun, hT⟩ := ih hR' hok.2 hpre'
      exact ⟨t, by rw [run_cons_of_ok hs', hrun], hT⟩

/-- What a system comes to by steps that meet a condition each. A message that the system
does not take in a state gives nothing. -/
inductive Reaches {σ μ : Type} (next : σ → μ → Option σ) (p : σ → μ → Prop) (s₀ : σ) : σ → Prop
  | start : Reaches next p s₀ s₀
  | step {s s' : σ} {m : μ} (h : Reaches next p s₀ s) (hp : p s m) (hs : next s m = some s') :
      Reaches next p s₀ s'

variable {next : σ → μ → Option σ} {s₀ s : σ}

/-- What each step preserves holds wherever the system comes to. -/
theorem Reaches.invariant (hstep : ∀ s m s', inv s → p s m → next s m = some s' → inv s')
    (hs₀ : inv s₀) (h : Reaches next p s₀ s) : inv s := by
  induction h with
  | start => exact hs₀
  | step _ hp hs ih => exact hstep _ _ _ ih hp hs

theorem Reaches.trans {t : σ} (h : Reaches next p s₀ s) (h' : Reaches next p s t) :
    Reaches next p s₀ t := by
  induction h' with
  | start => exact h
  | step _ hp hs ih => exact .step ih hp hs

/-- Messages that the system takes one after the other, each on the condition. -/
theorem Reaches.follow [∀ s m, Decidable (p s m)] (ms : List μ) {t : σ}
    (h : Reaches next p s₀ s)
    (hms : ms.foldlM (fun s m => if p s m then next s m else none) s = some t) :
    Reaches next p s₀ t := by
  induction ms generalizing s with
  | nil =>
    cases hms
    exact h
  | cons m ms ih =>
    rw [List.foldlM_cons] at hms
    by_cases hp : p s m
    · rw [if_pos hp] at hms
      cases hnext : next s m with
      | none =>
        rw [hnext] at hms
        cases hms
      | some s' =>
        rw [hnext] at hms
        exact ih (.step h hp hnext) hms
    · rw [if_neg hp] at hms
      cases hms

end OrderBookServer.Runs
