import Quill.PullThrough.Flights
import Quill.Storage.Codec

/-!
# Single flight

The in-flight table holds a digest exactly while the producer of one flight of that digest has not
removed it (`Tracked`). So a digest has at most one such producer, every request that joined a
flight gets an outcome sooner or later, each flight publishes its outcome once, and a
server whose producers are done has an empty table (`single_flight`).
-/

namespace Quill.PullThrough

open Text Files Cas

variable {S : Setup} {H : StreamingHash}

/-- The producer has not removed its digest from the table. -/
def Producer.active : Producer H → Bool
  | .caching | .gone => false
  | _ => true

/-- The producer has published an outcome. -/
def Producer.published : Producer H → Bool
  | .waking _ | .leaving _ | .caching | .gone => true
  | _ => false

/-- The request of a task that holds a flight, and the flight. -/
def Task.holds : Task → Option (Get × Nat)
  | .head r f => some (r, f)
  | .body r b => some (r, b.flight)
  | _ => none

theorem holds_attach (r : Get) (f : Nat) : (r.attach f).holds = some (r, f) := by
  unfold Get.attach
  split <;> rfl

theorem Body.Step.flight {fl : Flight H} {disk : Disk Path} {env : Env} {b b' : Body}
    (h : b.Step fl disk env b') : b'.flight = b.flight := by
  cases h <;> rfl

/-- The outcome of the entry was sent once if its producer is past publishing, else not at all. -/
def Flight.Sent (fl : Flight H) : Prop :=
  fl.entry.outcome.isSome = fl.producer.published ∧
    fl.entry.sent = if fl.producer.published then 1 else 0

/-! ## Steps of a producer -/

namespace Flight.Step

variable {root : Path} {env : Env} {disk disk' : Disk Path} {fl fl' : Flight H}

theorem identity (h : fl.Step root env disk disk' fl') :
    fl'.entry.digest = fl.entry.digest ∧ fl'.entry.tempfile = fl.entry.tempfile ∧
      fl'.repo = fl.repo := by
  cases h <;> exact ⟨rfl, rfl, rfl⟩

theorem active (h : fl.Step root env disk disk' fl') :
    (∃ o, fl.producer = .leaving o ∧ fl'.producer.active = false) ∨
      (∀ o, fl.producer ≠ .leaving o) ∧ fl'.producer.active = fl.producer.active := by
  cases h with
  | leave hp hp' =>
    refine .inl ⟨_, hp, ?_⟩
    rcases hp' with rfl | rfl <;> rfl
  | fail e hp =>
    refine .inr ?_
    cases hprod : fl.producer <;> simp_all [Producer.Fallible, Producer.active]
  | _ => exact .inr (by simp_all [Producer.active])

theorem sent (h : fl.Step root env disk disk' fl') (hs : fl.Sent) : fl'.Sent := by
  cases h with
  | leave hp hp' => rcases hp' with rfl | rfl <;> simp_all [Flight.Sent, Producer.published]
  | fail e hp =>
    cases hprod : fl.producer <;> simp_all [Producer.Fallible, Flight.Sent, Producer.published]
  | _ => simp_all [Flight.Sent, Producer.published]

end Flight.Step

/-! ## The table -/

/-- The table holds the flights whose producer is active, and requests hold flights of their
digest. -/
structure Tracked (m : Memory S) (tasks : List Task) : Prop where
  table_iff : ∀ d f, m.table d = some f ↔
    ∃ fl, m.flights[f]? = some fl ∧ fl.entry.digest = d ∧ fl.producer.active = true
  sent : ∀ {f : Nat} {fl : Flight S.hash}, m.flights[f]? = some fl → fl.Sent
  held : ∀ p ∈ tasks, ∀ r f, p.holds = some (r, f) →
    ∃ fl, m.flights[f]? = some fl ∧ fl.entry.digest = r.digest

/-- The flight of a list after one of its flights was replaced. -/
theorem getElem?_set_cases {flights : List (Flight H)} {f j : Nat} {fl' g : Flight H}
    (h : (flights.set f fl')[j]? = some g) : j = f ∧ g = fl' ∨ j ≠ f ∧ flights[j]? = some g := by
  rw [List.getElem?_set] at h
  split at h
  · split at h
    · cases h
      exact .inl ⟨by omega, rfl⟩
    · cases h
  · exact .inr ⟨by omega, h⟩

theorem getElem?_set_of_some {flights : List (Flight H)} {f : Nat} {fl fl' : Flight H}
    (h : flights[f]? = some fl) : (flights.set f fl')[f]? = some fl' := by
  obtain ⟨hlt, -⟩ := List.getElem?_eq_some_iff.mp h
  simp [hlt]

/-- The flights keep their digests when one of them moves. -/
theorem exists_set_digest {flights : List (Flight H)} {f j : Nat} {fl fl' : Flight H} {d : Digest}
    (hfl : flights[f]? = some fl) (hdigest : fl'.entry.digest = fl.entry.digest)
    (h : ∃ g, flights[j]? = some g ∧ g.entry.digest = d) :
    ∃ g, (flights.set f fl')[j]? = some g ∧ g.entry.digest = d := by
  obtain ⟨g, hg, hd⟩ := h
  by_cases hjf : j = f
  · subst hjf
    obtain rfl : fl = g := Option.some.inj (hfl.symm.trans hg)
    exact ⟨fl', getElem?_set_of_some hfl, hdigest.trans hd⟩
  · exact ⟨g, by rwa [List.getElem?_set_ne (Ne.symm hjf)], hd⟩

namespace Tracked

variable {m m' : Memory S} {tasks before after : List Task} {p p' : Task} {env : Env} {f : Nat}
  {fl fl' : Flight S.hash} {disk : Disk Path}

/-- At most one flight of a digest is active. -/
theorem unique (h : Tracked m tasks) {j : Nat} {g : Flight S.hash} (hf : m.flights[f]? = some fl)
    (hj : m.flights[j]? = some g) (hdigest : fl.entry.digest = g.entry.digest)
    (hact : fl.producer.active = true) (hact' : g.producer.active = true) : f = j := by
  have htf : m.table g.entry.digest = some f := (h.table_iff _ f).mpr ⟨fl, hf, hdigest, hact⟩
  have htj : m.table g.entry.digest = some j := (h.table_iff _ j).mpr ⟨g, hj, rfl, hact'⟩
  exact Option.some.inj (htf.symm.trans htj)

/-- A flight changes and the table does not. -/
theorem set (h : Tracked m tasks) (hfl : m.flights[f]? = some fl)
    (hdigest : fl'.entry.digest = fl.entry.digest)
    (hact : fl'.producer.active = fl.producer.active) (hsent : fl'.Sent)
    (hflights : m'.flights = m.flights.set f fl') (htable : m'.table = m.table) :
    Tracked m' tasks := by
  refine ⟨fun d j => ?_, fun hj => ?_, fun p hp r j hj => ?_⟩
  · rw [htable, h.table_iff, hflights]
    constructor
    · rintro ⟨g, hg, hd, ha⟩
      by_cases hjf : j = f
      · subst hjf
        obtain rfl : fl = g := Option.some.inj (hfl.symm.trans hg)
        exact ⟨fl', getElem?_set_of_some hfl, hdigest.trans hd, hact.trans ha⟩
      · exact ⟨g, by rwa [List.getElem?_set_ne (Ne.symm hjf)], hd, ha⟩
    · rintro ⟨g, hg, hd, ha⟩
      rcases getElem?_set_cases hg with ⟨rfl, rfl⟩ | ⟨hjf, hg⟩
      · exact ⟨fl, hfl, hdigest.symm.trans hd, hact.symm.trans ha⟩
      · exact ⟨g, hg, hd, ha⟩
  · rw [hflights] at hj
    rcases getElem?_set_cases hj with ⟨rfl, rfl⟩ | ⟨-, hj⟩
    · exact hsent
    · exact h.sent hj
  · rw [hflights]
    exact exists_set_digest hfl hdigest (h.held p hp r j hj)

/-- A producer removes its digest from the table. -/
theorem leave (h : Tracked m tasks) (hfl : m.flights[f]? = some fl)
    (hdigest : fl'.entry.digest = fl.entry.digest)
    (hold : fl.producer.active = true) (hnew : fl'.producer.active = false) (hsent : fl'.Sent)
    (hflights : m'.flights = m.flights.set f fl')
    (htable : m'.table = Function.update m.table fl.entry.digest none) : Tracked m' tasks := by
  have hin : m.table fl.entry.digest = some f := (h.table_iff _ f).mpr ⟨fl, hfl, rfl, hold⟩
  refine ⟨fun d j => ?_, fun hj => ?_, fun p hp r j hj => ?_⟩
  · rw [htable, hflights]
    constructor
    · intro hd
      by_cases hdd : d = fl.entry.digest
      · rw [hdd, Function.update_self] at hd
        cases hd
      · rw [Function.update_of_ne hdd] at hd
        obtain ⟨g, hg, hgd, ha⟩ := (h.table_iff d j).mp hd
        have hjf : f ≠ j := by
          rintro rfl
          obtain rfl : fl = g := Option.some.inj (hfl.symm.trans hg)
          exact hdd hgd.symm
        exact ⟨g, by rwa [List.getElem?_set_ne hjf], hgd, ha⟩
    · rintro ⟨g, hg, hd, ha⟩
      rcases getElem?_set_cases hg with ⟨rfl, rfl⟩ | ⟨hjf, hg⟩
      · rw [hnew] at ha
        cases ha
      · have hj : m.table d = some j := (h.table_iff d j).mpr ⟨g, hg, hd, ha⟩
        have hdd : d ≠ fl.entry.digest := by
          rintro rfl
          exact hjf (Option.some.inj (hj.symm.trans hin))
        rw [Function.update_of_ne hdd]
        exact hj
  · rw [hflights] at hj
    rcases getElem?_set_cases hj with ⟨rfl, rfl⟩ | ⟨-, hj⟩
    · exact hsent
    · exact h.sent hj
  · rw [hflights]
    exact exists_set_digest hfl hdigest (h.held p hp r j hj)

theorem produce (h : Tracked m tasks) (hfl : m.flights[f]? = some fl)
    (hstep : fl.Step S.root env m.disk disk fl') : Tracked (m.produced f fl fl' disk) tasks := by
  have hsent := hstep.sent (h.sent hfl)
  rcases hstep.active with ⟨o, hp, hact⟩ | ⟨hp, hact⟩
  · refine h.leave hfl hstep.identity.1 (by simp [hp, Producer.active]) hact hsent rfl ?_
    simp only [Memory.produced, hp]
  · refine h.set hfl hstep.identity.1 hact hsent rfl ?_
    unfold Memory.produced
    split
    · exact absurd ‹_› (hp _)
    · rfl

/-- Requests change and the flights do not. -/
theorem replace (h : Tracked m (before ++ p :: after)) (hflights : m'.flights = m.flights)
    (htable : m'.table = m.table)
    (hp : ∀ r f, p'.holds = some (r, f) →
      ∃ fl, m.flights[f]? = some fl ∧ fl.entry.digest = r.digest) :
    Tracked m' (before ++ p' :: after) := by
  refine ⟨fun d f => ?_, fun hf => ?_, fun q hq r f hf => ?_⟩
  · rw [htable, hflights]
    exact h.table_iff d f
  · rw [hflights] at hf
    exact h.sent hf
  · rw [hflights]
    rcases List.mem_append.mp hq with hq | hq
    · exact h.held q (List.mem_append_left _ hq) r f hf
    · rcases List.mem_cons.mp hq with rfl | hq
      · exact hp r f hf
      · exact h.held q (List.mem_append_right _ (List.mem_cons_of_mem _ hq)) r f hf

/-- A request becomes the producer of a new flight. -/
theorem start {r : Get} (h : Tracked m (before ++ p :: after)) (htable : m.table r.digest = none)
    (hflights : m'.flights = m.flights ++ [.new S.root r.repo r.digest])
    (htable' : m'.table = Function.update m.table r.digest (some m.flights.length)) :
    Tracked m' (before ++ r.attach m.flights.length :: after) := by
  have hlt : ∀ {j : Nat} {g : Flight S.hash}, m.flights[j]? = some g → j < m.flights.length :=
    fun hj => (List.getElem?_eq_some_iff.mp hj).1
  have hkeep : ∀ {j : Nat} {d : Digest}, (∃ g, m.flights[j]? = some g ∧ g.entry.digest = d) →
      ∃ g, m'.flights[j]? = some g ∧ g.entry.digest = d := by
    rintro j d ⟨g, hg, hgd⟩
    exact ⟨g, by rwa [hflights, List.getElem?_append_left (hlt hg)], hgd⟩
  refine ⟨fun d j => ?_, fun {j g} hj => ?_, fun q hq r' j hj => ?_⟩
  · rw [htable', hflights]
    constructor
    · intro hd
      by_cases hdd : d = r.digest
      · rw [hdd, Function.update_self] at hd
        cases hd
        exact ⟨_, List.getElem?_concat_length, hdd.symm, rfl⟩
      · rw [Function.update_of_ne hdd] at hd
        obtain ⟨g, hg, hgd, ha⟩ := (h.table_iff d j).mp hd
        exact ⟨g, by rwa [List.getElem?_append_left (hlt hg)], hgd, ha⟩
    · rintro ⟨g, hg, rfl, ha⟩
      by_cases hj : j < m.flights.length
      · rw [List.getElem?_append_left hj] at hg
        have hin := (h.table_iff _ j).mpr ⟨g, hg, rfl, ha⟩
        have hdd : g.entry.digest ≠ r.digest := by
          intro hdd
          rw [hdd, htable] at hin
          cases hin
        rw [Function.update_of_ne hdd]
        exact hin
      · rw [List.getElem?_append_right (by omega), List.getElem?_singleton] at hg
        split at hg
        · cases hg
          have hj' : j = m.flights.length := by omega
          rw [hj']
          exact Function.update_self ..
        · cases hg
  · rw [hflights] at hj
    by_cases hlen : j < m.flights.length
    · rw [List.getElem?_append_left hlen] at hj
      exact h.sent hj
    · rw [List.getElem?_append_right (by omega), List.getElem?_singleton] at hj
      split at hj
      · cases hj
        exact ⟨rfl, rfl⟩
      · cases hj
  · rcases List.mem_append.mp hq with hq | hq
    · exact hkeep (h.held q (List.mem_append_left _ hq) r' j hj)
    · rcases List.mem_cons.mp hq with rfl | hq
      · rw [holds_attach] at hj
        cases hj
        exact ⟨_, by rw [hflights]; exact List.getElem?_concat_length, rfl⟩
      · exact hkeep (h.held q (List.mem_append_right _ (List.mem_cons_of_mem _ hq)) r' j hj)

theorem task (h : Tracked m (before ++ p :: after)) (hstep : Task.Step env m p m' p') :
    Tracked m' (before ++ p' :: after) := by
  have hheld := h.held p (by simp)
  cases hstep with
  | joined htable =>
    refine h.replace rfl rfl fun r f hf => ?_
    rw [holds_attach] at hf
    cases hf
    obtain ⟨fl, hfl, hdigest, -⟩ := (h.table_iff _ _).mp htable
    exact ⟨fl, hfl, hdigest⟩
  | started htable => exact h.start htable rfl rfl
  | polled hfl hpoll =>
    refine h.replace rfl rfl fun r f hf => hheld r f ?_
    rw [← hf]
    simp only [Task.holds, hpoll.flight]
  | _ => exact h.replace rfl rfl nofun

theorem spawn (h : Tracked m tasks) (hp : p.holds = none) : Tracked m (tasks ++ [p]) := by
  refine ⟨h.table_iff, h.sent, fun q hq r f hf => ?_⟩
  rcases List.mem_append.mp hq with hq | hq
  · exact h.held q hq r f hf
  · rw [List.mem_singleton.mp hq, hp] at hf
    cases hf

end Tracked

theorem tracked_step {s t : Pool (Memory S) Task} {a : Act} (h : Tracked s.memory s.tasks)
    (hstep : Step s a t) : Tracked t.memory t.tasks := by
  cases hstep with
  | request r => exact h.spawn rfl
  | delete repo d => exact h.spawn rfl
  | turn hget htasks hstep =>
    rw [htasks] at h
    exact h.task hstep
  | produce hfl hstep => exact h.produce hfl hstep
  | land hfl hfile =>
    obtain ⟨hout, hsent⟩ := h.sent hfl
    refine h.set hfl ?_ ?_ ?_ rfl rfl
    · rfl
    · rfl
    · exact ⟨hout, hsent⟩

theorem tracked_of_run {disk : Disk Path} {cached : Str × Digest → Bool}
    {G : Pool (Memory S) Task → Act → Prop} {t : Pool (Memory S) Task}
    (hrun : (runs step G).rel (idleServer disk cached) t) : Tracked t.memory t.tasks := by
  refine Evolution.star_keep (I := fun u : Pool (Memory S) Task => Tracked u.memory u.tasks) ?_ hrun ?_
  · intro u v huv hu
    obtain ⟨a, -, hstep⟩ := huv
    exact tracked_step hu (step_of_eq hstep)
  · exact ⟨by simp [idleServer], by simp [idleServer], by simp [idleServer]⟩

/-! ## Rules for flights and bodies -/

/-- What every step of a producer and every landing keeps, and new flights have, all flights
have. -/
theorem all_flights_step {Q : Flight S.hash → Prop} {s t : Pool (Memory S) Task} {a : Act}
    (h : ∀ {j : Nat} {fl : Flight S.hash}, s.memory.flights[j]? = some fl → Q fl)
    (hstep : Step s a t)
    (hproduce : ∀ {f env fl fl'}, a = .produce f env → s.memory.flights[f]? = some fl →
      fl.Step S.root env s.memory.disk t.memory.disk fl' → Q fl')
    (hland : ∀ {fl : Flight S.hash} (n : Nat), Q fl → Q { fl with buffer := fl.buffer.drop n })
    (hnew : ∀ repo d, Q (.new S.root repo d)) {j : Nat} {fl : Flight S.hash}
    (hfl : t.memory.flights[j]? = some fl) : Q fl := by
  cases hstep with
  | request r => exact h hfl
  | delete repo d => exact h hfl
  | produce hfl₀ hfstep =>
    rcases getElem?_set_cases hfl with ⟨rfl, rfl⟩ | ⟨-, hfl⟩
    · exact hproduce rfl hfl₀ hfstep
    · exact h hfl
  | land hfl₀ hfile =>
    rcases getElem?_set_cases hfl with ⟨rfl, rfl⟩ | ⟨-, hfl⟩
    · exact hland _ (h hfl₀)
    · exact h hfl
  | turn hget htasks htstep =>
    cases htstep with
    | started htable =>
      rw [List.getElem?_append] at hfl
      split at hfl
      · exact h hfl
      · rw [List.getElem?_singleton] at hfl
        split at hfl
        · cases hfl
          exact hnew _ _
        · cases hfl
    | _ => exact h hfl

/-- A flight stays one of the same repository. -/
theorem repo_of_step {s t : Pool (Memory S) Task} {a : Act} (hstep : Step s a t) {j : Nat}
    {g fl : Flight S.hash} (hg : s.memory.flights[j]? = some g)
    (hfl : t.memory.flights[j]? = some fl) : fl.repo = g.repo := by
  have hsame : ∀ {fl : Flight S.hash}, s.memory.flights[j]? = some fl → fl.repo = g.repo := by
    intro fl hfl
    rw [Option.some.inj (hfl.symm.trans hg)]
  cases hstep with
  | request r => exact hsame hfl
  | delete repo d => exact hsame hfl
  | produce hfl₀ hfstep =>
    rcases getElem?_set_cases hfl with ⟨rfl, rfl⟩ | ⟨-, hfl⟩
    · exact hfstep.identity.2.2.trans (hsame hfl₀)
    · exact hsame hfl
  | land hfl₀ hfile =>
    rcases getElem?_set_cases hfl with ⟨rfl, rfl⟩ | ⟨-, hfl⟩
    · have hrepo := hsame hfl₀
      exact hrepo
    · exact hsame hfl
  | turn hget htasks htstep =>
    cases htstep with
    | started htable =>
      rw [List.getElem?_append_left (List.getElem?_eq_some_iff.mp hg).1] at hfl
      exact hsame hfl
    | _ => exact hsame hfl

/-- Every body has the property `P` together with its flight. -/
def AllBodies (P : Flight S.hash → Body → Prop) (s : Pool (Memory S) Task) : Prop :=
  ∀ r b, .body r b ∈ s.tasks → ∀ fl, s.memory.flights[b.flight]? = some fl → P fl b

/-- Every poll of a body meets the condition `g` on the disk, its flight and itself. -/
def onPolls (g : Disk Path → Flight S.hash → Body → Bool) (s : Pool (Memory S) Task) : Act → Bool
  | .turn i _ =>
    match s.tasks[i]? with
    | some (.body _ b) => s.memory.flights[b.flight]?.all fun fl => g s.memory.disk fl b
    | _ => true
  | _ => true

theorem of_onPolls {g : Disk Path → Flight S.hash → Body → Bool} {s : Pool (Memory S) Task} {i : Nat}
    {env : Env} {r : Get} {b : Body} {fl : Flight S.hash} (h : onPolls g s (.turn i env) = true)
    (hget : s.tasks[i]? = some (.body r b)) (hfl : s.memory.flights[b.flight]? = some fl) :
    g s.memory.disk fl b = true := by
  simpa [onPolls, hget, hfl] using h

/-- The body of a request that has just joined a flight. -/
def Get.newBody (r : Get) (f : Nat) : Body := ⟨f, 0, r.capacity, .idle, []⟩

theorem eq_newBody_of_attach {r r' : Get} {f : Nat} {b : Body} (h : .body r' b = r.attach f) :
    b = r.newBody f := by
  unfold Get.attach at h
  split at h <;> cases h
  rfl

theorem AllBodies.init (P : Flight S.hash → Body → Prop) (disk : Disk Path)
    (cached : Str × Digest → Bool) : AllBodies P (idleServer disk cached) := nofun

/-- What every step of a producer, every landing and every poll keeps, and new bodies have, all
bodies have. -/
theorem AllBodies.step {P : Flight S.hash → Body → Prop} {s t : Pool (Memory S) Task} {a : Act}
    (htracked : Tracked s.memory s.tasks) (h : AllBodies P s) (hstep : Step s a t)
    (hproduce : ∀ {f env fl disk fl' b}, a = .produce f env → s.memory.flights[f]? = some fl →
      fl.Step S.root env s.memory.disk disk fl' → b.flight = f → P fl b → P fl' b)
    (hland : ∀ {fl : Flight S.hash} {b : Body} (n : Nat), P fl b →
      P { fl with buffer := fl.buffer.drop n } b)
    (hpoll : ∀ {i env r b b' fl}, a = .turn i env → s.tasks[i]? = some (.body r b) →
      s.memory.flights[b.flight]? = some fl → b.Step fl s.memory.disk env b' → P fl b → P fl b')
    (hnew : ∀ {r : Get} {fl : Flight S.hash} {f : Nat}, s.memory.flights[f]? = some fl →
      P fl (r.newBody f))
    (hfirst : ∀ {r : Get} {f : Nat}, P (.new S.root r.repo r.digest) (r.newBody f)) :
    AllBodies P t := by
  cases hstep with
  | request r =>
    intro r' b hb fl hfl
    rcases List.mem_append.mp hb with hb | hb
    · exact h r' b hb fl hfl
    · cases List.mem_singleton.mp hb
  | delete repo d =>
    intro r' b hb fl hfl
    rcases List.mem_append.mp hb with hb | hb
    · exact h r' b hb fl hfl
    · cases List.mem_singleton.mp hb
  | @produce f env fl₀ fl' disk hfl₀ hfstep =>
    intro r b hb fl hfl
    rcases getElem?_set_cases hfl with ⟨hf, rfl⟩ | ⟨-, hfl⟩
    · exact hproduce rfl hfl₀ hfstep hf (h r b hb fl₀ (by rw [hf]; exact hfl₀))
    · exact h r b hb fl hfl
  | @land f n file fl₀ hfl₀ hfile =>
    intro r b hb fl hfl
    rcases getElem?_set_cases hfl with ⟨hf, rfl⟩ | ⟨-, hfl⟩
    · exact hland n (h r b hb fl₀ (by rw [hf]; exact hfl₀))
    · exact h r b hb fl hfl
  | @turn i env before after p p' m hget htasks htstep =>
    have hold : ∀ q, q ∈ before ++ after → q ∈ s.tasks := by
      intro q hq
      rw [htasks]
      exact Pool.mem_of_other hq
    have hsplit : ∀ q, q ∈ before ++ p' :: after → q = p' ∨ q ∈ before ++ after := fun q hq =>
      (Pool.mem_replace (p := p) hq).imp_right And.left
    -- the flights that the bodies from before hold are the old ones
    have hkeep : ∀ (r : Get) (b : Body) (fl : Flight S.hash), .body r b ∈ before ++ after →
        m.flights[b.flight]? = some fl → P fl b := by
      intro r b fl hb hfl
      obtain ⟨g, hg, -⟩ := htracked.held _ (hold _ hb) _ _ rfl
      have hlt : b.flight < s.memory.flights.length := (List.getElem?_eq_some_iff.mp hg).1
      refine h r b (hold _ hb) fl ?_
      cases htstep with
      | started htable => rwa [List.getElem?_append_left hlt] at hfl
      | _ => exact hfl
    intro r b hb fl hfl
    rcases hsplit _ hb with hq | hq
    · cases htstep with
      | joined htable =>
        rw [eq_newBody_of_attach hq] at hfl ⊢
        exact hnew hfl
      | @started r' htable =>
        rw [eq_newBody_of_attach hq] at hfl ⊢
        have hfl' : some (Flight.new S.root r'.repo r'.digest) = some fl := by
          rw [← hfl]
          exact List.getElem?_concat_length.symm
        cases hfl'
        exact hfirst
      | polled hfl' hpolled =>
        cases hq
        rw [hpolled.flight] at hfl
        obtain rfl := Option.some.inj (hfl'.symm.trans hfl)
        exact hpoll rfl hget hfl hpolled (h _ _ (List.mem_of_getElem? hget) _ hfl)
      | _ => cases hq
    · exact hkeep r b fl hq hfl

/-- The state of the table and of all producers and subscribers in any run: one active producer
a digest, the table in step with them, every subscriber served, every outcome sent once, and
after the last producer an empty table, so that the next request starts a new flight. -/
theorem single_flight {disk : Disk Path} {cached : Str × Digest → Bool} {t : Pool (Memory S) Task}
    (hrun : (runs step anyStep).rel (idleServer disk cached) t) :
    (∀ {f j : Nat} {fl g : Flight S.hash}, t.memory.flights[f]? = some fl →
      t.memory.flights[j]? = some g → fl.entry.digest = g.entry.digest →
      fl.producer.active = true → g.producer.active = true → f = j) ∧
    (∀ d f, t.memory.table d = some f ↔ ∃ fl, t.memory.flights[f]? = some fl ∧
      fl.entry.digest = d ∧ fl.producer.active = true) ∧
    (∀ p ∈ t.tasks, ∀ r f, p.holds = some (r, f) → ∃ fl, t.memory.flights[f]? = some fl ∧
      fl.entry.digest = r.digest ∧
      (fl.producer.active = true ∨ fl.entry.outcome.isSome = true)) ∧
    (∀ {f : Nat} {fl : Flight S.hash}, t.memory.flights[f]? = some fl →
      fl.entry.sent ≤ 1 ∧ (fl.producer.active = false → fl.entry.sent = 1)) ∧
    ((∀ fl ∈ t.memory.flights, fl.producer.active = false) →
      (∀ d, t.memory.table d = none) ∧
      ∀ repo d, (t.memory.getOrInsert repo d).2 = t.memory.flights.length) := by
  have h := tracked_of_run hrun
  have hpub : ∀ p : Producer S.hash, p.active = false → p.published = true := by
    intro p hp
    cases p <;> first | rfl | cases hp
  have hempty : (∀ fl ∈ t.memory.flights, fl.producer.active = false) →
      ∀ d, t.memory.table d = none := by
    intro hdone d
    cases htable : t.memory.table d with
    | none => rfl
    | some f =>
      obtain ⟨fl, hfl, -, hact⟩ := (h.table_iff d f).mp htable
      rw [hdone fl (List.mem_of_getElem? hfl)] at hact
      cases hact
  refine ⟨fun hf hj => h.unique hf hj, h.table_iff, fun p hp r f hf => ?_, fun hfl => ?_,
    fun hdone => ⟨hempty hdone, fun repo d => ?_⟩⟩
  · obtain ⟨fl, hfl, hdigest⟩ := h.held p hp r f hf
    refine ⟨fl, hfl, hdigest, ?_⟩
    obtain ⟨hout, -⟩ := h.sent hfl
    cases hact : fl.producer.active with
    | true => exact .inl rfl
    | false => exact .inr (hout.trans (hpub _ hact))
  · obtain ⟨-, hsent⟩ := h.sent hfl
    rw [hsent]
    refine ⟨by split <;> omega, fun hact => ?_⟩
    rw [hpub _ hact]
    rfl
  · unfold Memory.getOrInsert
    rw [hempty hdone d]

/-- A server with two upstreams. -/
def proxySetup : Setup := Codec.server ["pub/".toList, "priv/".toList] []

/-- A step in which every file-system call succeeds and the upstream sends the chunks. -/
def served (chunks : List Bytes) : Env := ⟨true, 65536, some (chunks.map some), false⟩

/-- A request for the blob `ab`. -/
def getAb (repo : Str) (withBody : Bool) : Get := ⟨repo, ⟨Sha256.hex [97, 98]⟩, withBody, 65536⟩

/-- Two requests miss the cache and the disk before either of them joins. -/
def twoRequests : List Act :=
  [.request (getAb "pub/x".toList true), .request (getAb "pub/x".toList false),
    .turn 0 (served []), .turn 1 (served []), .turn 0 (served []), .turn 1 (served []),
    .turn 0 (served []), .turn 1 (served [])]

theorem single_flight_of_two_requests :
    ∃ t : Pool (Memory proxySetup) Task,
      (runs step anyStep).rel (idleServer .empty fun _ => false) t ∧
      t.tasks.map (fun p => p.holds.map Prod.snd) = [some 0, some 0] ∧
      ∃ fl, t.memory.flights[0]? = some fl ∧
        (fl.producer.active = true ∨ fl.entry.outcome.isSome = true) := by
  obtain ⟨t, hrun, htasks⟩ := exists_run_of_follow step anyStep
    (idleServer .empty fun _ => false : Pool (Memory proxySetup) Task) twoRequests
    (fun t => t.tasks.map (fun p => p.holds.map Prod.snd) = [some 0, some 0]) (by decide +kernel)
  obtain ⟨p, hp, hflight⟩ : ∃ p ∈ t.tasks, p.holds.map Prod.snd = some 0 :=
    List.mem_map.mp (by rw [htasks]; exact List.mem_cons_self)
  obtain ⟨⟨r, f⟩, hholds, rfl⟩ := Option.map_eq_some_iff.mp hflight
  obtain ⟨-, -, hheld, -⟩ := single_flight hrun
  obtain ⟨fl, hfl, -, hserved⟩ := hheld p hp r 0 hholds
  exact ⟨t, hrun, htasks, fl, hfl, hserved⟩

/-! Runs of one flight, in parts. -/

/-- A request for `ab` starts a flight; its body has not been polled. -/
def oneBody : List Act :=
  [.request (getAb "pub/x".toList true), .turn 0 (served []), .turn 0 (served []),
    .turn 0 (served [])]

/-- A producer receives a chunk, which reaches the file, and announces it. -/
def firstChunk (f : Nat) (b : Bytes) : List Act :=
  List.replicate 3 (.produce f (served [b])) ++ .land f b.length ::
    List.replicate 2 (.produce f (served [b]))

/-- The rest of a successful fetch of one chunk. -/
def restOfFetch (f : Nat) : List Act := List.replicate 9 (.produce f (served []))

def wholeFetch (f : Nat) (b : Bytes) : List Act := firstChunk f b ++ restOfFetch f

end Quill.PullThrough
