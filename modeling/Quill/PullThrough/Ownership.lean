import Quill.PullThrough.SingleFlight

/-!
# Whose file is whose

The temporary file of a fetch has a path that is fixed by repository and digest, so two fetches of
one digest use one path. `Owned` says that flights have files of their own all the same: a flight that
has created its file and not given it up holds the path, and no other flight of the digest is
active meanwhile; file and buffer together are what the producer received.
-/

namespace Quill.PullThrough

open Text Files Cas LocalStorage Uploads

variable {S : Setup} {H : StreamingHash}

/-! ## Paths -/

theorem tempfilePath_ne_blobPath (root : Path) (repo repo' : Str) (d d' : Digest) :
    tempfilePath root repo d ≠ blobPath root repo' d' := by
  intro h
  have hname : ("pt-".toList ++ d.hex.val).length = d'.hex.val.length :=
    congrArg (fun n : Name => n.val.length) (List.cons.inj h).1
  simp [d.hex.property.1, d'.hex.property.1] at hname

theorem tempfilePath_digest {root : Path} {repo repo' : Str} {d d' : Digest}
    (h : tempfilePath root repo d = tempfilePath root repo' d') : d = d' := by
  have hname : "pt-".toList ++ d.hex.val = "pt-".toList ++ d'.hex.val :=
    congrArg (fun n : Name => n.val) (List.cons.inj h).1
  exact hexName_injective (Subtype.ext (List.append_cancel_left hname))

/-! ## Owners of files -/

/-- The producer has created its file and neither renamed nor removed it. -/
def Producer.holding : Producer H → Bool
  | .receiving .. | .advancing .. | .notifying .. | .flushing .. | .comparing .. | .promoting _
  | .removing _ => true
  | _ => false

theorem Producer.active_of_holding {p : Producer H} (h : p.holding = true) : p.active = true := by
  cases p <;> first | rfl | cases h

/-- The path is fixed by repository and digest, and nothing was received before the file exists. -/
structure Flight.Placed (root : Path) (fl : Flight H) : Prop where
  path : fl.entry.tempfile = tempfilePath root fl.repo fl.entry.digest
  unopened : fl.file = none → fl.received = [] ∧ fl.buffer = []
  creating : ∀ stream, fl.producer = .creating stream → fl.file = none
  opening : fl.producer = .opening → fl.file = none
  holds : fl.producer.holding = true → fl.file.isSome = true

/-- The file of a flight: file and buffer are what was received, the path of a flight that holds
its file names it, and otherwise at most the blob does. -/
structure Flight.Owns (root : Path) (disk : Disk Path) (fl : Flight H) : Prop where
  bound : ∀ {file}, fl.file = some file → file < disk.next
  contents : ∀ {file}, fl.file = some file → disk.contents file ++ fl.buffer = fl.received
  present : fl.producer.holding = true → disk.entry fl.entry.tempfile = fl.file
  named : ∀ {file p}, fl.file = some file → disk.entry p = some file →
    p = fl.entry.tempfile ∧ fl.producer.holding = true ∨ p = blobPath root fl.repo fl.entry.digest

/-- Every flight owns its file. -/
structure Owned (m : Memory S) : Prop where
  placed : ∀ {f : Nat} {fl : Flight S.hash}, m.flights[f]? = some fl → fl.Placed S.root
  owns : ∀ {f : Nat} {fl : Flight S.hash}, m.flights[f]? = some fl → fl.Owns S.root m.disk
  distinct : ∀ {f j file : Nat} {fl g : Flight S.hash}, m.flights[f]? = some fl →
    m.flights[j]? = some g → fl.file = some file → g.file = some file → f = j

/-- No cleanup of a temporary file fails, and no fetch reaches `2 ^ 64` bytes. -/
def tidy (s : Pool (Memory S) Task) : Act → Bool
  | .produce f env =>
    match s.memory.flights[f]? with
    | some fl =>
      match fl.producer with
      | .removing _ => env.ok
      | .receiving (some chunk :: _) _ _ => fl.received.length + chunk.length < u64
      | _ => true
    | none => true
  | _ => true

theorem placed_step {root : Path} {env : Env} {disk disk' : Disk Path} {fl fl' : Flight H}
    (h : fl.Step root env disk disk' fl') (hp : fl.Placed root) : fl'.Placed root := by
  obtain ⟨hpath, hunopened, hcreating, hopening, hholds⟩ := hp
  cases h with
  | receive hprod hbuf =>
    have hsome := hholds (by rw [hprod]; rfl)
    refine ⟨hpath, fun hnone => ?_, by simp, by simp, fun _ => hsome⟩
    rw [show fl.file = none from hnone] at hsome
    cases hsome
  | create hprod => exact ⟨hpath, by simp, by simp, by simp, fun _ => rfl⟩
  | opened hprod hreply =>
    exact ⟨hpath, hunopened, fun _ _ => hopening hprod, by simp, by simp [Producer.holding]⟩
  | fail e hprod =>
    refine ⟨hpath, hunopened, by simp, by simp, fun _ => hholds ?_⟩
    cases hcase : fl.producer <;> simp_all [Producer.Fallible, Producer.holding]
  | leave hprod hprod' =>
    rcases hprod' with rfl | rfl <;>
      exact ⟨hpath, hunopened, by simp, by simp, by simp [Producer.holding]⟩
  | _ => exact ⟨hpath, hunopened, by simp, by simp, by simp_all [Producer.holding]⟩

/-- What a step of a producer does to the disk, unless a cleanup fails. -/
inductive Flight.OnDisk (root : Path) (disk : Disk Path) (fl : Flight H) :
    Disk Path → Flight H → Prop
  | quiet {fl' : Flight H} (hfile : fl'.file = fl.file) (hbuffer : fl'.buffer = fl.buffer)
      (hreceived : fl'.received = fl.received)
      (hholding : fl'.producer.holding = fl.producer.holding) : OnDisk root disk fl disk fl'
  | receive {fl' : Flight H} (chunk : Bytes) (hfile : fl'.file = fl.file) (hbuf : fl.buffer = [])
      (hbuffer : fl'.buffer = chunk) (hreceived : fl'.received = fl.received ++ chunk)
      (hholding : fl.producer.holding = true) (hholding' : fl'.producer.holding = true) :
      OnDisk root disk fl disk fl'
  | create {fl' : Flight H} (hfile : fl'.file = some (disk.created fl.entry.tempfile))
      (hbuffer : fl'.buffer = fl.buffer) (hreceived : fl'.received = fl.received)
      (hactive : fl.producer.active = true) (hnone : fl.file = none)
      (hholding' : fl'.producer.holding = true) :
      OnDisk root disk fl (disk.create fl.entry.tempfile) fl'
  | rename {fl' : Flight H} {disk' : Disk Path} (hfile : fl'.file = fl.file)
      (hbuffer : fl'.buffer = fl.buffer) (hreceived : fl'.received = fl.received)
      (hholding : fl.producer.holding = true) (hholding' : fl'.producer.holding = false)
      (hren : disk.rename fl.entry.tempfile (blobPath root fl.repo fl.entry.digest) = some disk') :
      OnDisk root disk fl disk' fl'
  | remove {fl' : Flight H} (hfile : fl'.file = fl.file) (hbuffer : fl'.buffer = fl.buffer)
      (hreceived : fl'.received = fl.received) (hholding : fl.producer.holding = true)
      (hholding' : fl'.producer.holding = false) :
      OnDisk root disk fl (disk.remove fl.entry.tempfile) fl'

theorem Flight.Step.onDisk {root : Path} {env : Env} {disk disk' : Disk Path} {fl fl' : Flight H}
    (h : fl.Step root env disk disk' fl') (hp : fl.Placed root)
    (htidy : ∀ e, fl.producer = .removing e → env.ok = true) :
    fl.OnDisk root disk disk' fl' := by
  cases h with
  | create hprod =>
    exact .create rfl rfl rfl (by rw [hprod]; rfl) (hp.creating _ hprod) rfl
  | receive hprod hbuf => exact .receive _ rfl hbuf rfl rfl (by rw [hprod]; rfl) rfl
  | rename hprod hren => exact .rename rfl rfl rfl (by rw [hprod]; rfl) rfl hren
  | remove hprod => exact .remove rfl rfl rfl (by rw [hprod]; rfl) rfl
  | leftover hprod hfault =>
    rw [htidy _ hprod] at hfault
    cases hfault
  | fail e hprod =>
    refine .quiet rfl rfl rfl ?_
    cases hcase : fl.producer <;> simp_all [Producer.Fallible, Producer.holding]
  | leave hprod hprod' =>
    refine .quiet rfl rfl rfl ?_
    rcases hprod' with rfl | rfl <;> simp [hprod, Producer.holding]
  | _ => exact .quiet rfl rfl rfl (by simp_all [Producer.holding])

namespace Flight.OnDisk

variable {root : Path} {disk disk' : Disk Path} {fl fl' g : Flight H}

theorem owns_self (h : fl.OnDisk root disk disk' fl') (ho : fl.Owns root disk)
    (hp : fl.Placed root) (hdigest : fl'.entry.digest = fl.entry.digest)
    (htemp : fl'.entry.tempfile = fl.entry.tempfile) (hrepo : fl'.repo = fl.repo) :
    fl'.Owns root disk' := by
  cases h with
  | quiet hfile hbuffer hreceived hholding =>
    refine ⟨fun hf => ho.bound (hfile ▸ hf), fun hf => ?_, fun hh => ?_, fun hf hname => ?_⟩
    · rw [hbuffer, hreceived]
      exact ho.contents (hfile ▸ hf)
    · rw [htemp, hfile]
      exact ho.present (hholding ▸ hh)
    · rw [htemp, hrepo, hdigest, hholding]
      exact ho.named (hfile ▸ hf) hname
  | receive chunk hfile hbuf hbuffer hreceived hholding hholding' =>
    refine ⟨fun hf => ho.bound (hfile ▸ hf), fun hf => ?_, fun hh => ?_, fun hf hname => ?_⟩
    · have hcontents := ho.contents (hfile ▸ hf)
      rw [hbuf, List.append_nil] at hcontents
      rw [hbuffer, hreceived, hcontents]
    · rw [htemp, hfile]
      exact ho.present hholding
    · rw [htemp, hrepo, hdigest]
      exact (ho.named (hfile ▸ hf) hname).imp_left fun hl => ⟨hl.1, hholding'⟩
  | create hfile hbuffer hreceived hactive hnone hholding' =>
    obtain ⟨hrec, hbuf⟩ := hp.unopened hnone
    have hat : (disk.create fl.entry.tempfile).entry fl.entry.tempfile = fl'.file := by
      rw [hfile]
      exact Function.update_self ..
    refine ⟨fun hf => ?_, fun hf => ?_, fun hh => ?_, fun hf hname => .inl ⟨?_, hholding'⟩⟩
    · cases hfile.symm.trans hf
      exact Disk.created_lt ..
    · cases hfile.symm.trans hf
      simp [hbuffer, hreceived, hrec, hbuf]
    · rw [htemp]
      exact hat
    · rw [htemp]
      exact Disk.entry_inj _ hname (hat.trans hf)
  | rename hfile hbuffer hreceived hholding hholding' hren =>
    obtain ⟨file, hentry, hcontents, hnext, hentry'⟩ := Disk.rename_eq_some hren
    refine ⟨fun hf => ?_, fun hf => ?_, fun hh => ?_, fun {f p} hf hname => .inr ?_⟩
    · rw [hnext]
      exact ho.bound (hfile ▸ hf)
    · rw [hcontents, hbuffer, hreceived]
      exact ho.contents (hfile ▸ hf)
    · rw [hholding'] at hh
      cases hh
    · have hfl : fl.file = some file := (ho.present hholding).symm.trans hentry
      have hat : disk'.entry (blobPath root fl.repo fl.entry.digest) = some f := by
        rw [hentry', Function.update_self, ← hf, hfile, hfl]
      rw [hrepo, hdigest]
      exact disk'.entry_inj hname hat
  | remove hfile hbuffer hreceived hholding hholding' =>
    refine ⟨fun hf => ho.bound (hfile ▸ hf), fun hf => ?_, fun hh => ?_, fun {f p} hf hname => .inr ?_⟩
    · rw [hbuffer, hreceived]
      exact ho.contents (hfile ▸ hf)
    · rw [hholding'] at hh
      cases hh
    · have hne : p ≠ fl.entry.tempfile := by
        rintro rfl
        rw [Disk.remove_entry, Function.update_self] at hname
        cases hname
      rw [Disk.remove_entry, Function.update_of_ne hne] at hname
      rw [hrepo, hdigest]
      exact (ho.named (hfile ▸ hf) hname).resolve_left fun hl => hne hl.1

/-- A step of another flight, which has another file and, while both are active, another path. -/
theorem owns_other (h : fl.OnDisk root disk disk' fl') (ho : fl.Owns root disk)
    (hp : fl.Placed root) (hg : g.Owns root disk) (hgp : g.Placed root)
    (hfile : ∀ file, fl.file = some file → g.file ≠ some file)
    (hpath : g.producer.holding = true → fl.producer.active = true →
      g.entry.tempfile ≠ fl.entry.tempfile) : g.Owns root disk' := by
  have hblob : ∀ repo d, fl.entry.tempfile ≠ blobPath root repo d := by
    intro repo d
    rw [hp.path]
    exact tempfilePath_ne_blobPath _ _ _ _ _
  have hgblob : ∀ repo d, g.entry.tempfile ≠ blobPath root repo d := by
    intro repo d
    rw [hgp.path]
    exact tempfilePath_ne_blobPath _ _ _ _ _
  cases h with
  | quiet => exact hg
  | receive => exact hg
  | create hfile' hbuffer hreceived hactive hnone hholding' =>
    have hne : ∀ {file}, g.file = some file → disk.created fl.entry.tempfile ≠ file := by
      intro file hf
      refine Disk.created_ne (hg.bound hf) fun hname => ?_
      rcases hg.named hf hname with ⟨htemp, hh⟩ | htemp
      · exact hpath hh hactive htemp.symm
      · exact hblob _ _ htemp
    refine ⟨fun hf => ?_, fun hf => ?_, fun hh => ?_, fun {file p} hf hname => ?_⟩
    · exact (hg.bound hf).trans_le (Disk.next_le_create ..)
    · rw [Disk.create_contents, Function.update_of_ne (hne hf).symm]
      exact hg.contents hf
    · rw [Disk.create_entry, Function.update_of_ne (hpath hh hactive)]
      exact hg.present hh
    · rw [Disk.create_entry] at hname
      by_cases hpt : p = fl.entry.tempfile
      · rw [hpt, Function.update_self] at hname
        exact absurd (Option.some.inj hname) (hne hf)
      · rw [Function.update_of_ne hpt] at hname
        exact hg.named hf hname
  | rename hfile' hbuffer hreceived hholding hholding' hren =>
    obtain ⟨file, hentry, hcontents, hnext, hentry'⟩ := Disk.rename_eq_some hren
    have hfl : fl.file = some file := (ho.present hholding).symm.trans hentry
    have hactive := Producer.active_of_holding hholding
    refine ⟨fun hf => ?_, fun hf => ?_, fun hh => ?_, fun {f p} hf hname => ?_⟩
    · rw [hnext]
      exact hg.bound hf
    · rw [hcontents]
      exact hg.contents hf
    · rw [hentry', Function.update_of_ne (hgblob _ _), Function.update_of_ne (hpath hh hactive)]
      exact hg.present hh
    · rw [hentry'] at hname
      by_cases hpb : p = blobPath root fl.repo fl.entry.digest
      · rw [hpb, Function.update_self] at hname
        cases hname
        exact absurd hf (hfile file hfl)
      · rw [Function.update_of_ne hpb] at hname
        by_cases hpt : p = fl.entry.tempfile
        · rw [hpt, Function.update_self] at hname
          cases hname
        · rw [Function.update_of_ne hpt] at hname
          exact hg.named hf hname
  | remove hfile' hbuffer hreceived hholding hholding' =>
    have hactive := Producer.active_of_holding hholding
    refine ⟨fun hf => hg.bound hf, fun hf => hg.contents hf, fun hh => ?_, fun {f p} hf hname => ?_⟩
    · rw [Disk.remove_entry, Function.update_of_ne (hpath hh hactive)]
      exact hg.present hh
    · rw [Disk.remove_entry] at hname
      by_cases hpt : p = fl.entry.tempfile
      · rw [hpt, Function.update_self] at hname
        cases hname
      · rw [Function.update_of_ne hpt] at hname
        exact hg.named hf hname

end Flight.OnDisk

theorem Flight.OnDisk.file {root : Path} {disk disk' : Disk Path} {fl fl' : Flight H}
    (h : fl.OnDisk root disk disk' fl') :
    fl'.file = fl.file ∨ fl.producer.active = true ∧ fl.file = none ∧
      fl'.file = some (disk.created fl.entry.tempfile) := by
  cases h with
  | create hfile hbuffer hreceived hactive hnone => exact .inr ⟨hactive, hnone, hfile⟩
  | quiet hfile => exact .inl hfile
  | receive chunk hfile => exact .inl hfile
  | rename hfile => exact .inl hfile
  | remove hfile => exact .inl hfile

namespace Owned

variable {m m' : Memory S} {tasks : List Task} {f : Nat} {fl fl' : Flight S.hash} {disk : Disk Path}
  {env : Env}

theorem idle (disk : Disk Path) (cached : Str × Digest → Bool) :
    Owned (idleServer disk cached : Pool (Memory S) Task).memory := by
  constructor <;> simp [idleServer]

/-- Two flights that are active at once have different paths. -/
theorem path_ne (h : Owned m) (htracked : Tracked m tasks) {j : Nat} {g : Flight S.hash}
    (hf : m.flights[f]? = some fl) (hj : m.flights[j]? = some g) (hne : f ≠ j)
    (hact : fl.producer.active = true) (hact' : g.producer.active = true) :
    g.entry.tempfile ≠ fl.entry.tempfile := by
  intro htemp
  rw [(h.placed hj).path, (h.placed hf).path] at htemp
  exact hne (htracked.unique hf hj (tempfilePath_digest htemp).symm hact hact')

theorem produce (h : Owned m) (htracked : Tracked m tasks) (hfl : m.flights[f]? = some fl)
    (hstep : fl.Step S.root env m.disk disk fl')
    (htidy : ∀ e, fl.producer = .removing e → env.ok = true)
    (hflights : m'.flights = m.flights.set f fl') (hdisk : m'.disk = disk) : Owned m' := by
  have hp := h.placed hfl
  have ho := h.owns hfl
  have hon := hstep.onDisk hp htidy
  obtain ⟨hdigest, htemp, hrepo⟩ := hstep.identity
  -- the file of the flight that moved is no other flight's file
  have hapart : ∀ {j : Nat} {g : Flight S.hash} {file : Nat}, j ≠ f → m.flights[j]? = some g →
      g.file = some file → fl'.file ≠ some file := by
    intro j g file hne hg hgf hf
    rcases hon.file with hsame | ⟨hact, hnone, hcreated⟩
    · exact hne (h.distinct hg hfl hgf (hsame ▸ hf))
    · have hcf : m.disk.created fl.entry.tempfile = file := Option.some.inj (hcreated.symm.trans hf)
      refine Disk.created_ne ((h.owns hg).bound hgf) (fun hname => ?_) hcf
      rcases (h.owns hg).named hgf hname with ⟨htemp', hh⟩ | htemp'
      · exact h.path_ne htracked hfl hg hne.symm hact (Producer.active_of_holding hh) htemp'.symm
      · rw [hp.path] at htemp'
        exact tempfilePath_ne_blobPath _ _ _ _ _ htemp'
  refine ⟨fun {j g} hj => ?_, fun {j g} hj => ?_, fun {j k file g g'} hj hk hg hg' => ?_⟩
  · rw [hflights] at hj
    rcases getElem?_set_cases hj with ⟨rfl, rfl⟩ | ⟨-, hj⟩
    · exact placed_step hstep hp
    · exact h.placed hj
  · rw [hflights] at hj
    rw [hdisk]
    rcases getElem?_set_cases hj with ⟨rfl, rfl⟩ | ⟨hne, hj⟩
    · exact hon.owns_self ho hp hdigest htemp hrepo
    · refine hon.owns_other ho hp (h.owns hj) (h.placed hj) (fun file hff hgf => ?_)
        fun hh hact => ?_
      · exact hne (h.distinct hj hfl hgf hff)
      · exact h.path_ne htracked hfl hj hne.symm hact (Producer.active_of_holding hh)
  · rw [hflights] at hj hk
    rcases getElem?_set_cases hj with ⟨rfl, rfl⟩ | ⟨hne, hjold⟩
    · rcases getElem?_set_cases hk with ⟨rfl, rfl⟩ | ⟨hne, hkold⟩
      · rfl
      · exact absurd hg (hapart hne hkold hg')
    · rcases getElem?_set_cases hk with ⟨rfl, rfl⟩ | ⟨-, hkold⟩
      · exact absurd hg' (hapart hne hjold hg)
      · exact h.distinct hjold hkold hg hg'

/-- Bytes of the buffer land in the file. -/
theorem land (h : Owned m) (hfl : m.flights[f]? = some fl) {file : Nat} (n : Nat)
    (hfile : fl.file = some file)
    (hflights : m'.flights = m.flights.set f { fl with buffer := fl.buffer.drop n })
    (hdisk : m'.disk = m.disk.append file (fl.buffer.take n)) : Owned m' := by
  refine ⟨fun {j g} hj => ?_, fun {j g} hj => ?_, fun {j k file g g'} hj hk hg hg' => ?_⟩
  · rw [hflights] at hj
    rcases getElem?_set_cases hj with ⟨rfl, rfl⟩ | ⟨-, hj⟩
    · obtain ⟨hpath, hunopened, hcreating, hopening, hholds⟩ := h.placed hfl
      refine ⟨hpath, fun hnone => ?_, hcreating, hopening, hholds⟩
      exact absurd (hfile.symm.trans hnone) nofun
    · exact h.placed hj
  · rw [hflights] at hj
    rw [hdisk]
    rcases getElem?_set_cases hj with ⟨rfl, rfl⟩ | ⟨hne, hj⟩
    · obtain ⟨hbound, hcontents, hpresent, hnamed⟩ := h.owns hfl
      refine ⟨hbound, fun {file'} hf => ?_, hpresent, hnamed⟩
      cases hfile.symm.trans hf
      simp only [Disk.append_contents, Function.update_self, List.append_assoc,
        List.take_append_drop]
      exact hcontents hfile
    · obtain ⟨hbound, hcontents, hpresent, hnamed⟩ := h.owns hj
      refine ⟨hbound, fun {file'} hf => ?_, hpresent, hnamed⟩
      have hapart : file' ≠ file := by
        rintro rfl
        exact hne (h.distinct hj hfl hf hfile)
      rw [Disk.append_contents, Function.update_of_ne hapart]
      exact hcontents hf
  · rw [hflights] at hj hk
    rcases getElem?_set_cases hj with ⟨rfl, rfl⟩ | ⟨-, hjold⟩
    · rcases getElem?_set_cases hk with ⟨rfl, rfl⟩ | ⟨-, hkold⟩
      · rfl
      · exact h.distinct hfl hkold hg hg'
    · rcases getElem?_set_cases hk with ⟨rfl, rfl⟩ | ⟨-, hkold⟩
      · exact h.distinct hjold hfl hg hg'
      · exact h.distinct hjold hkold hg hg'

/-- A new flight has no file yet. -/
theorem start (h : Owned m) (repo : Str) (d : Digest)
    (hflights : m'.flights = m.flights ++ [.new S.root repo d]) (hdisk : m'.disk = m.disk) :
    Owned m' := by
  have hcases : ∀ {j : Nat} {g : Flight S.hash}, m'.flights[j]? = some g →
      m.flights[j]? = some g ∨ g = .new S.root repo d := by
    intro j g hj
    rw [hflights, List.getElem?_append] at hj
    split at hj
    · exact .inl hj
    · rw [List.getElem?_singleton] at hj
      split at hj
      · exact .inr (Option.some.inj hj).symm
      · cases hj
  refine ⟨fun {j g} hj => ?_, fun {j g} hj => ?_, fun {j k file g g'} hj hk hg hg' => ?_⟩
  · rcases hcases hj with hj | rfl
    · exact h.placed hj
    · exact ⟨rfl, fun _ => ⟨rfl, rfl⟩, nofun, fun _ => rfl, nofun⟩
  · rw [hdisk]
    rcases hcases hj with hj | rfl
    · exact h.owns hj
    · exact ⟨nofun, nofun, nofun, nofun⟩
  · rcases hcases hj with hj | rfl
    · rcases hcases hk with hk | rfl
      · exact h.distinct hj hk hg hg'
      · cases hg'
    · cases hg

/-- A blob is deleted. -/
theorem deleteBlob (h : Owned m) (repo : Str) (d : Digest) (hflights : m'.flights = m.flights)
    (hdisk : m'.disk = m.disk.remove (blobPath S.root repo d)) : Owned m' := by
  refine ⟨fun {j g} hj => h.placed (hflights ▸ hj), fun {j g} hj => ?_,
    fun hj hk => h.distinct (hflights ▸ hj) (hflights ▸ hk)⟩
  rw [hflights] at hj
  obtain ⟨hbound, hcontents, hpresent, hnamed⟩ := h.owns hj
  rw [hdisk]
  refine ⟨hbound, hcontents, fun hh => ?_, fun {file p} hf hname => ?_⟩
  · have hne : g.entry.tempfile ≠ blobPath S.root repo d := by
      rw [(h.placed hj).path]
      exact tempfilePath_ne_blobPath _ _ _ _ _
    rw [Disk.remove_entry, Function.update_of_ne hne]
    exact hpresent hh
  · rw [Disk.remove_entry] at hname
    by_cases hp : p = blobPath S.root repo d
    · rw [hp, Function.update_self] at hname
      cases hname
    · rw [Function.update_of_ne hp] at hname
      exact hnamed hf hname

end Owned

theorem owned_step {s t : Pool (Memory S) Task} {a : Act} (htracked : Tracked s.memory s.tasks)
    (h : Owned s.memory) (htidy : tidy s a = true) (hstep : Step s a t) : Owned t.memory := by
  cases hstep with
  | request r => exact h
  | delete repo d => exact h
  | land hfl hfile => exact h.land hfl _ hfile rfl rfl
  | produce hfl hstep =>
    refine h.produce htracked hfl hstep (fun e he => ?_) rfl rfl
    simpa [tidy, hfl, he] using htidy
  | turn hget htasks hstep =>
    cases hstep with
    | started htable => exact h.start _ _ rfl rfl
    | removed => exact h.deleteBlob _ _ rfl rfl
    | _ => exact ⟨h.placed, h.owns, h.distinct⟩

end Quill.PullThrough
