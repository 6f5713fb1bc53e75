import Quill.PullThrough.SingleFlight

/-!
# Wakeups of subscribers

A body that has returned `Pending` and has no read in flight is polled again only if it is
woken. It is stuck when the producer of its flight has made its last notification and
none is still to come (`Body.stuck`). This happens in two ways. The producer may finish
after a body has found no outcome and before the body creates its notification future
(`late_future_is_stuck`); and a body may read the high-water mark before the last chunk and
the outcome after it, which returns `Pending` without a future (`undrained_body_is_stuck`).

Where every body creates its future before the last notification and reads a successful
outcome only when it has emitted everything (`Heeds`), no body is ever stuck (`no_body_stuck`).
-/

namespace Quill.PullThrough

open Text Files Cas

variable {S : Setup} {H : StreamingHash}

/-- The producer has made its last notification. -/
def Producer.finished : Producer H → Bool
  | .leaving _ | .caching | .gone => true
  | _ => false

/-- The body has returned `Pending` without a read in flight, and no wakeup is on its way. -/
def Body.stuck (fl : Flight H) (b : Body) : Bool :=
  fl.producer.finished && match b.state with
    | .stalled => true
    | .waiting epoch => fl.entry.notified ≤ epoch
    | _ => false

/-- Some body is stuck. -/
def anyStuck (s : Pool (Memory S) Task) : Bool :=
  s.tasks.any fun
    | .body _ b => s.memory.flights[b.flight]?.any fun fl => b.stuck fl
    | _ => false

/-- A body does not overlook the end of its flight: it reads a success only at the final size, and
creates its future before the last notification. -/
def Body.heeds (fl : Flight H) (b : Body) : Bool :=
  match b.state, fl.entry.outcome with
  | .marked, some (.success n) => n ≤ b.offset
  | .unfinished, _ => !fl.producer.finished
  | _, _ => true

/-- Every poll of a body heeds its flight. -/
def Heeds (s : Pool (Memory S) Task) (a : Act) : Prop := onPolls (fun _ fl b => b.heeds fl) s a = true

instance : DecidableRel (Heeds : Pool (Memory S) Task → Act → Prop) :=
  fun s a => inferInstanceAs (Decidable (onPolls _ s a = true))

/-! ## The invariant -/

/-- A notification future that was created at `epoch` is woken already or will be. -/
def Flight.WillWake (fl : Flight H) (epoch : Nat) : Prop :=
  epoch ≤ fl.entry.notified ∧ (epoch < fl.entry.notified ∨ fl.producer.finished = false)

/-- The body is not parked for good: the future it waits on is woken already or will be. -/
def Body.Awake (fl : Flight H) (b : Body) : Prop :=
  match b.state with
  | .stalled => False
  | .created epoch | .waiting epoch => fl.WillWake epoch
  | _ => True

theorem Flight.Step.willWake {root : Path} {env : Env} {disk disk' : Disk Path} {fl fl' : Flight H}
    (h : fl.Step root env disk disk' fl') {epoch : Nat} (hw : fl.WillWake epoch) :
    fl'.WillWake epoch := by
  obtain ⟨hle, hlt⟩ := hw
  cases h with
  | wake hp => exact ⟨Nat.le_succ_of_le hle, .inl (Nat.lt_succ_of_le hle)⟩
  | notify hp => exact ⟨Nat.le_succ_of_le hle, .inl (Nat.lt_succ_of_le hle)⟩
  | leave hp hp' =>
    rw [hp] at hlt
    exact ⟨hle, .inl (hlt.resolve_right (by simp [Producer.finished]))⟩
  | cache hp =>
    rw [hp] at hlt
    exact ⟨hle, .inl (hlt.resolve_right (by simp [Producer.finished]))⟩
  | _ => exact ⟨hle, .inr rfl⟩

theorem Body.Step.awake {fl : Flight H} {disk : Disk Path} {env : Env} {b b' : Body}
    (h : b.Step fl disk env b') (hb : b.Awake fl) (hheeds : b.heeds fl = true) :
    b'.Awake fl := by
  cases h with
  | undrained hs ho hlt =>
    simp only [Body.heeds, hs, ho, decide_eq_true_eq] at hheeds
    omega
  | register hs =>
    simp only [Body.heeds, hs, Bool.not_eq_true'] at hheeds
    exact ⟨le_rfl, .inr hheeds⟩
  | park hs hle =>
    rcases hs with hs | hs
    · simpa only [Body.Awake, hs] using hb
    · simpa only [Body.Awake, hs] using hb
  | _ => exact trivial

theorem awake_step {s t : Pool (Memory S) Task} {a : Act} (htracked : Tracked s.memory s.tasks)
    (h : AllBodies (fun fl b => b.Awake fl) s) (hheeds : Heeds s a) (hstep : Step s a t) :
    AllBodies (fun fl b => b.Awake fl) t := by
  refine h.step htracked hstep ?_ ?_ ?_ ?_ ?_
  · intro f env fl disk fl' b _ _ hfstep _ hb
    unfold Body.Awake at hb ⊢
    split at hb
    · exact hb
    · exact hfstep.willWake hb
    · exact hfstep.willWake hb
    · exact trivial
  · intro fl b n hb
    exact hb
  · intro i env r b b' fl ha hget hfl hbstep hb
    subst ha
    exact hbstep.awake hb (of_onPolls hheeds hget hfl)
  · intro r fl f _
    exact trivial
  · intro r f
    exact trivial

theorem Body.Awake.not_stuck {fl : Flight H} {b : Body} (h : b.Awake fl) : b.stuck fl = false := by
  cases hfinished : fl.producer.finished with
  | false => simp [Body.stuck, hfinished]
  | true =>
    cases hs : b.state <;> simp only [Body.Awake, Flight.WillWake, hs] at h <;>
      simp [Body.stuck, hfinished, hs]
    rcases h with ⟨-, hlt | hrunning⟩
    · exact hlt
    · rw [hfinished] at hrunning
      cases hrunning

/-- In every run in which the bodies heed their flights, no body is ever stuck. -/
theorem no_body_stuck {disk : Disk Path} {cached : Str × Digest → Bool} {t : Pool (Memory S) Task}
    (hrun : (runs step Heeds).rel (idleServer disk cached) t) : anyStuck t = false := by
  have hinv : Tracked t.memory t.tasks ∧ AllBodies (fun fl b => b.Awake fl) t := by
    refine Evolution.star_keep
      (I := fun u : Pool (Memory S) Task =>
        Tracked u.memory u.tasks ∧ AllBodies (fun fl b => b.Awake fl) u)
      ?_ hrun ⟨tracked_of_run ((runs step Heeds).refl _), AllBodies.init _ disk cached⟩
    intro u v huv hu
    obtain ⟨a, hheeds, hstep⟩ := huv
    have hstep := step_of_eq hstep
    exact ⟨tracked_step hu.1 hstep, awake_step hu.1 hu.2 hheeds hstep⟩
  apply List.any_eq_false.mpr
  intro p hp
  cases p with
  | body r b =>
    cases hfl : t.memory.flights[b.flight]? with
    | none => simp [hfl]
    | some fl => simp [hfl, (hinv.2 r b hp fl hfl).not_stuck]
  | _ => simp

/-! ## Runs with and without a stuck body -/

/-- The body is polled until it waits before the fetch begins, and twice when it is over. -/
theorem patient_body_not_stuck :
    ∃ t : Pool (Memory proxySetup) Task, (runs step Heeds).rel (idleServer .empty fun _ => false) t ∧
      t.memory.flights.all (fun fl => fl.producer.finished) = true ∧ anyStuck t = false := by
  obtain ⟨t, hrun, hdone⟩ := exists_run_of_follow step Heeds
    (idleServer .empty fun _ => false : Pool (Memory proxySetup) Task)
    (oneBody ++ List.replicate 4 (.turn 0 (served [])) ++ wholeFetch 0 [97, 98] ++
      List.replicate 2 (.turn 0 (served [])))
    (fun t => t.memory.flights.all (fun fl => fl.producer.finished) = true) (by decide +kernel)
  exact ⟨t, hrun, hdone, no_body_stuck hrun⟩

/-- The whole fetch falls between the check of the outcome and the creation of the future. -/
theorem late_future_is_stuck :
    ∃ t : Pool (Memory proxySetup) Task,
      (runs step anyStep).rel (idleServer .empty fun _ => false) t ∧ anyStuck t = true :=
  exists_run_of_follow step anyStep _
    (oneBody ++ List.replicate 2 (.turn 0 (served [])) ++ wholeFetch 0 [97, 98] ++
      List.replicate 2 (.turn 0 (served []))) _ (by decide +kernel)

/-- The whole fetch falls between the reads of the high-water mark and of the outcome. -/
theorem undrained_body_is_stuck :
    ∃ t : Pool (Memory proxySetup) Task,
      (runs step anyStep).rel (idleServer .empty fun _ => false) t ∧ anyStuck t = true :=
  exists_run_of_follow step anyStep _
    (oneBody ++ .turn 0 (served []) :: wholeFetch 0 [97, 98] ++ [.turn 0 (served [])]) _
    (by decide +kernel)

end Quill.PullThrough
