import Sidecar.Proofs.Flat.RoundTrip
import Sidecar.Proofs.Writer.Abandoned

/-!
# Waiting for a job

A job that the pool has taken ends well, if it is given the time. Workers take the jobs in order, a
started build ends, and a worker that is done takes the next job: so every build that ends leaves one
job less, and as long as any are left, one of them is being run (`Busy`). The job that somebody waits
for is among them until it ends itself (`Underway`), and it ends with its file written, if nothing is
wrong with the engine.

Others may have jobs on the pool, queued or started, and these may end as they like. They only write
elsewhere (`Sharing`).
-/

set_option autoImplicit false

namespace Sidecar

/-- Nothing is wrong with the engine: it fails no build, and leaves none out. -/
structure Host.Healthy (host : Host) : Prop where
  failing : host.instruments.failingBuilds = 0
  panicking : host.instruments.panickingBuilds = 0
  skipping : host.instruments.skippedBuilds = 0

namespace Host.Healthy

variable {host host' : Host} {files files' : FileTree}

theorem startBuild (h : host.Healthy) :
    (∃ due, host.startBuild.1 = .writes due) ∧ host.startBuild.2.Healthy := by
  unfold Host.startBuild
  dsimp only
  rw [h.panicking, h.skipping]
  exact ⟨⟨_, rfl⟩, h.failing, rfl, rfl⟩

theorem endBuild (h : host.Healthy) {course : Host.Course} {ids : List DocId}
    {vectors : List Embedding} {output : Path} {result : Option (Except Error Unit)}
    (hend : Host.endBuild course ids vectors output (files, host) = (result, files', host')) :
    host'.Healthy := by
  unfold Host.endBuild at hend
  dsimp only [Host.passUntil] at hend
  rw [h.failing] at hend
  split at hend
  · cases hend
    exact h
  · cases hend
    exact h
  · dsimp only at hend
    split at hend
    · cases hend
      exact ⟨h.failing, h.panicking, h.skipping⟩
    · cases hend
      exact ⟨h.failing, h.panicking, h.skipping⟩

/-- A build writes its file, if one can be made. -/
theorem endBuild_writes (h : host.Healthy) (due : Nat) {ids : List DocId}
    {vectors : List Embedding} {output : Path} (huniform : FlatIndex.Uniform ids vectors)
    (hwrite : files.write output (FlatIndex.encode ids vectors) = .ok files') :
    Host.endBuild (.writes due) ids vectors output (files, host)
      = (some (.ok ()), files', host.passUntil due) := by
  have hbuild := FlatIndex.build_eq_ok_iff.mpr ⟨huniform, hwrite⟩
  unfold Host.endBuild
  dsimp only [Host.passUntil]
  rw [h.failing, hbuild]

end Host.Healthy

namespace Builders

variable {others : Location → Prop} {tidy : Prop} {ticket : Nat} {job : BuildJob} {s s' : State}
  {files : FileTree} {host host' : Host} {b b' : Builders} {place : Nat} {build : Build}

/-! ## Workers -/

/-- There are workers, and they stay as long as the pool is open. -/
structure Staffed (b : Builders) : Prop where
  workers : 0 < b.pool.workers
  stay : b.pool.isShutDown = false → b.pool.departed = 0

theorem staffed_new (config : WriterConfig) : (new config).Staffed :=
  ⟨Nat.lt_of_lt_of_le Nat.zero_lt_one (Nat.le_max_right _ _), fun _ => rfl⟩

/-- The same workers serve the pool. -/
structure SameCrew (b b' : Builders) : Prop where
  workers : b'.pool.workers = b.pool.workers
  departed : b'.pool.departed = b.pool.departed
  isShutDown : b'.pool.isShutDown = b.pool.isShutDown

theorem SameCrew.refl (b : Builders) : SameCrew b b := ⟨rfl, rfl, rfl⟩

theorem SameCrew.trans {b'' : Builders} (h : SameCrew b b') (h' : SameCrew b' b'') :
    SameCrew b b'' :=
  ⟨h'.workers.trans h.workers, h'.departed.trans h.departed, h'.isShutDown.trans h.isShutDown⟩

theorem SameCrew.staffed (h : SameCrew b b') (hb : b.Staffed) : b'.Staffed :=
  ⟨h.workers ▸ hb.workers, by rw [h.departed, h.isShutDown]; exact hb.stay⟩

theorem sameCrew_finish (b : Builders) (place : Nat) :
    SameCrew b { b with pool := b.pool.finish place } := by
  unfold WorkerPool.finish
  split
  · exact ⟨rfl, rfl, rfl⟩
  · exact .refl b

theorem sameCrew_start (h : b.start host = some (host', b')) : SameCrew b b' := by
  obtain ⟨task, rest, course, -, rfl⟩ := start_cases h
  exact ⟨rfl, rfl, rfl⟩

theorem sameCrew_submit (h : b.submit job = some (ticket, b')) : SameCrew b b' := by
  obtain ⟨-, rfl⟩ := submit_cases h
  exact ⟨rfl, rfl, rfl⟩

theorem Step.staffed (h : Step others tidy s s') (hs : s.2.2.Staffed) : s'.2.2.Staffed := by
  cases h with
  | start h => exact (sameCrew_start h).staffed hs
  | write _ _ _ => exact ⟨hs.workers, hs.stay⟩
  | report place =>
    obtain ⟨files, host, b⟩ := s
    rcases report_cases place files host b with ⟨-, heq⟩ | ⟨build, -, heq⟩
    · rwa [heq]
    · rw [heq]
      exact (sameCrew_finish b place).staffed hs
  | abandon ticket => exact ⟨hs.workers, hs.stay⟩
  | close => exact ⟨hs.workers, nofun⟩
  | @dismiss files host b =>
    refine ⟨?_, ?_⟩
    · obtain ⟨departed, heq⟩ := dismiss_cases b.pool
      rw [heq]
      exact hs.workers
    · intro hopen
      unfold WorkerPool.dismiss at hopen ⊢
      split
      · next hclosed => simp_all
      · next hstay => exact hs.stay (by simpa [hstay] using hopen)
  | submit h _ => exact (sameCrew_submit h).staffed hs
  | pass => exact hs

theorem Steps.staffed (h : Steps others tidy s s') (hs : s.2.2.Staffed) : s'.2.2.Staffed := by
  induction h with
  | refl => exact hs
  | tail _ hstep ih => exact hstep.staffed ih

/-- No job waits while nobody works. -/
def Busy (b : Builders) : Prop := b.pool.queue ≠ [] → b.pool.active ≠ []

theorem busy_of_start_none (hpresent : b.pool.departed < b.pool.workers)
    (h : b.start host = none) : b.Busy := by
  intro hqueue hactive
  unfold start at h
  rw [Option.map_eq_none_iff] at h
  have hidle : b.pool.hasIdleWorker = true := by simpa [WorkerPool.hasIdleWorker, hactive]
  unfold WorkerPool.start at h
  rw [if_pos hidle] at h
  split at h
  · next hnone => exact hqueue hnone
  · cases h

theorem size_start (h : b.start host = some (host', b')) :
    b'.pool.size = b.pool.size ∧ b'.pool.queue.length + 1 = b.pool.queue.length := by
  obtain ⟨task, rest, course, hqueue, rfl⟩ := start_cases h
  constructor
  · simp only [WorkerPool.size, modify, WorkerPool.mapTasks, List.length_map, List.length_append,
      hqueue, List.length_cons, List.length_nil]
    omega
  · simp [modify, WorkerPool.mapTasks, hqueue]

theorem startMany_keeps (n : Nat) (host : Host) (b : Builders) :
    SameCrew b (startMany n (host, b)).2 ∧ (startMany n (host, b)).2.pool.size = b.pool.size := by
  induction n generalizing host b with
  | zero => exact ⟨.refl b, rfl⟩
  | succ n ih =>
    unfold startMany
    cases hstart : b.start host with
    | none => exact ⟨.refl b, rfl⟩
    | some state =>
      obtain ⟨host', b'⟩ := state
      obtain ⟨hcrew, hsize⟩ := ih host' b'
      exact ⟨(sameCrew_start hstart).trans hcrew, hsize.trans (size_start hstart).1⟩

theorem startMany_busy {n : Nat} (hn : b.pool.queue.length ≤ n)
    (hpresent : b.pool.departed < b.pool.workers) : (startMany n (host, b)).2.Busy := by
  induction n generalizing host b with
  | zero =>
    intro hqueue
    exact absurd (List.eq_nil_of_length_eq_zero (Nat.le_zero.mp hn)) hqueue
  | succ n ih =>
    unfold startMany
    cases hstart : b.start host with
    | none => exact busy_of_start_none hpresent hstart
    | some state =>
      obtain ⟨host', b'⟩ := state
      have hlength := (size_start hstart).2
      have hcrew := sameCrew_start hstart
      exact ih (by omega) (by rw [hcrew.workers, hcrew.departed]; exact hpresent)

/-! ## The build that ends next -/

/-- The earlier of two builds. -/
def earlier (best : Option (Nat × Nat)) (found : Nat × Nat) : Option (Nat × Nat) :=
  match best with
  | none => some found
  | some earlier => if found.2 < earlier.2 then some found else some earlier

theorem foldl_earlier (founds : List (Nat × Nat)) (best : Option (Nat × Nat))
    (h : founds ≠ [] ∨ best.isSome = true) :
    ∃ found, founds.foldl earlier best = some found ∧ (found ∈ founds ∨ best = some found) := by
  induction founds generalizing best with
  | nil =>
    obtain ⟨found, hbest⟩ := Option.isSome_iff_exists.mp (h.resolve_left (fun hne => hne rfl))
    exact ⟨found, hbest, Or.inr hbest⟩
  | cons first rest ih =>
    have hstep : earlier best first = some first ∨ earlier best first = best := by
      unfold earlier
      split
      · exact Or.inl rfl
      · split
        · exact Or.inl rfl
        · exact Or.inr rfl
    have hsome : (earlier best first).isSome = true := by
      unfold earlier
      split
      · rfl
      · split <;> rfl
    obtain ⟨found, hfold, hmem⟩ := ih (earlier best first) (Or.inr hsome)
    refine ⟨found, hfold, ?_⟩
    rcases hmem with hrest | hbest
    · exact Or.inl (List.mem_cons_of_mem _ hrest)
    · rcases hstep with heq | heq
      · rw [heq, Option.some.injEq] at hbest
        exact Or.inl (hbest ▸ List.mem_cons_self)
      · exact Or.inr (heq ▸ hbest)

theorem next_of_active (h : b.pool.active ≠ []) :
    ∃ place due build, b.next = some (place, due) ∧ b.pool.active[place]? = some build := by
  have hne : b.pool.active.mapIdx (fun place build => (place, dueAt build)) ≠ [] := by
    simpa [List.mapIdx_eq_nil_iff] using h
  obtain ⟨⟨place, due⟩, hfold, hmem⟩ := foldl_earlier _ none (Or.inl hne)
  rcases hmem with hmem | hnone
  · obtain ⟨i, hi, heq⟩ := List.mem_mapIdx.mp hmem
    obtain ⟨rfl, -⟩ := Prod.mk.inj heq
    exact ⟨_, due, _, hfold, List.getElem?_eq_getElem hi⟩
  · cases hnone

/-! ## The job -/

/-- The job is on the pool and not abandoned. If its build has started, it writes. -/
def Awaited (ticket : Nat) (b : Builders) : Prop :=
  ∃ build ∈ b.tasks, build.ticket = ticket ∧ build.isAbandoned = false ∧
    (build ∈ b.pool.active → ∃ due, build.course = some (.writes due))

theorem mem_active_of_modify {other : Nat} {f : Build → Build}
    (hf : ∀ build, (f build).ticket = build.ticket) (hne : build.ticket ≠ other)
    (h : build ∈ (b.modify other f).pool.active) : build ∈ b.pool.active := by
  rw [active_modify] at h
  obtain ⟨old, hold, rfl⟩ := List.mem_map.mp h
  by_cases hother : old.ticket = other
  · rw [change, if_pos hother, hf] at hne
    exact absurd hother hne
  · rwa [change_of_ne hother]

theorem active_modify_self (hplace : b.pool.active[place]? = some build) (f : Build → Build) :
    (b.modify build.ticket f).pool.active[place]? = some (f build) := by
  rw [active_modify, List.getElem?_map, hplace, Option.map_some, change, if_pos rfl]

theorem Awaited.modify (h : Awaited ticket b) {other : Nat} {f : Build → Build}
    (hf : ∀ build, (f build).ticket = build.ticket) (hne : other ≠ ticket) :
    Awaited ticket (b.modify other f) := by
  obtain ⟨build, hbuild, rfl, hkept, hcourse⟩ := h
  refine ⟨build, ?_, rfl, hkept, fun hactive => hcourse ?_⟩
  · rw [tasks_modify, ← change_of_ne (f := f) (Ne.symm hne)]
    exact List.mem_map_of_mem hbuild
  · exact mem_active_of_modify hf (Ne.symm hne) hactive

theorem Awaited.start (h : Awaited ticket b) (hhost : host.Healthy)
    (hstart : b.start host = some (host', b')) : Awaited ticket b' := by
  obtain ⟨build, hbuild, rfl, hkept, hcourse⟩ := h
  obtain ⟨task, rest, hqueue, -, rfl⟩ := start_eq hstart
  obtain ⟨⟨due, hdue⟩, -⟩ := hhost.startBuild
  have hmem := (tasks_start hqueue).mem_iff.mpr hbuild
  refine ⟨change task.ticket (fun x => { x with course := some host.startBuild.1 }) build, ?_, ?_⟩
  · rw [tasks_modify]
    exact List.mem_map_of_mem hmem
  · by_cases htask : build.ticket = task.ticket
    · rw [change, if_pos htask]
      exact ⟨rfl, hkept, fun _ => ⟨due, congrArg some hdue⟩⟩
    · rw [change_of_ne htask]
      refine ⟨rfl, hkept, fun hactive => ?_⟩
      have hbefore := mem_active_of_modify (by exact fun _ => rfl) htask hactive
      rcases List.mem_append.mp hbefore with hold | hnew
      · exact hcourse hold
      · exact absurd (congrArg Build.ticket (List.mem_singleton.mp hnew)) htask

theorem Awaited.startMany (h : Awaited ticket b) (hhost : host.Healthy) (n : Nat) :
    Awaited ticket (Builders.startMany n (host, b)).2 ∧
      (Builders.startMany n (host, b)).1.Healthy := by
  induction n generalizing host b with
  | zero => exact ⟨h, hhost⟩
  | succ n ih =>
    unfold Builders.startMany
    cases hstart : b.start host with
    | none => exact ⟨h, hhost⟩
    | some state =>
      obtain ⟨host', b'⟩ := state
      obtain ⟨_, _, -, hhost', -⟩ := start_eq hstart
      exact ih (h.start hhost hstart) (hhost' ▸ hhost.startBuild.2)

theorem Awaited.finish (h : Awaited ticket b) {ended : Build}
    (hplace : b.pool.active[place]? = some ended) (hne : ended.ticket ≠ ticket) :
    Awaited ticket { b with pool := b.pool.finish place } := by
  obtain ⟨build, hbuild, hticket, hkept, hcourse⟩ := h
  refine ⟨build, ?_, hticket, hkept, fun hactive => hcourse ?_⟩
  · rcases List.mem_cons.mp ((tasks_finish hplace).mem_iff.mpr hbuild) with rfl | hmem
    · exact absurd hticket hne
    · exact hmem
  · unfold WorkerPool.finish at hactive
    split at hactive
    · exact List.mem_of_mem_eraseIdx hactive
    · exact hactive

/-- The awaited job shares the pool with others, its file can be made, and nothing is wrong with the
engine. -/
structure Underway (others : Location → Prop) (ticket : Nat) (job : BuildJob) (s : State) :
    Prop extends Sharing others ticket job s where
  awaited : Awaited ticket s.2.2
  healthy : s.2.1.Healthy
  writable : ∃ opened, s.1.create job.temporary = .ok opened
  present : s.2.2.pool.departed < s.2.2.pool.workers

theorem Underway.startMany (h : Underway others ticket job (files, host, b)) (n : Nat) :
    Underway others ticket job (files, Builders.startMany n (host, b)) := by
  obtain ⟨hawaited, hhealthy⟩ := h.awaited.startMany h.healthy n
  have hcrew := (startMany_keeps n host b).1
  refine ⟨(h.toSharing.steps (startMany_steps others n files host b)).1, hawaited, hhealthy,
    h.writable, ?_⟩
  rw [hcrew.workers, hcrew.departed]
  exact h.present

/-! ## A build ends -/

/-- The pool when a build has ended and its worker has not taken another job yet. -/
def without (place : Nat) (build : Build) (result : Option (Except Error Unit)) (b : Builders) :
    Builders :=
  let b := b.modify build.ticket fun x => { x with result }
  { b with pool := b.pool.finish place }

/-- What becomes of a build when it ends. -/
theorem complete_cases (files : FileTree) (host : Host) (hplace : b.pool.active[place]? = some build) :
    ∃ result files' host', Host.endBuild (build.course.getD .skips) build.job.ids build.job.vectors
        build.job.temporary (files, host) = (result, files', host') ∧
      complete place (files, host, b) = (some { build with result },
        (if build.isAbandoned && result.isSome then files'.removeIfPossible build.job.temporary
          else files'),
        (b.without place build result).startAll host') := by
  rcases write_cases place files host b with ⟨hnone, -⟩ |
    ⟨started, result, files', host', hstarted, hend, hwrite⟩
  · rw [hplace] at hnone
    cases hnone
  · rw [hplace, Option.some.injEq] at hstarted
    subst hstarted
    have hchanged := active_modify_self hplace (fun x => { x with result })
    refine ⟨result, files', host', hend, ?_⟩
    rcases report_cases place files' host' (b.modify build.ticket fun x => { x with result }) with
      ⟨hnone, -⟩ | ⟨ended, hended, hreport⟩
    · rw [hchanged] at hnone
      cases hnone
    · rw [hchanged, Option.some.injEq] at hended
      subst hended
      rw [complete, hwrite, hreport, without]

theorem size_finish {pool : WorkerPool Build} (h : place < pool.active.length) :
    (pool.finish place).size + 1 = pool.size := by
  rw [WorkerPool.finish, if_pos h]
  simp only [WorkerPool.size, List.length_eraseIdx, if_pos h]
  omega

theorem size_without (hplace : b.pool.active[place]? = some build)
    (result : Option (Except Error Unit)) :
    (b.without place build result).pool.size + 1 = b.pool.size := by
  obtain ⟨hlt, -⟩ := List.getElem?_eq_some_iff.mp hplace
  have hsize : (b.modify build.ticket fun x => { x with result }).pool.size = b.pool.size := by
    simp [WorkerPool.size, modify, WorkerPool.mapTasks]
  rw [without, size_finish, hsize]
  rwa [active_modify, List.length_map]

/-- Another job ends, and the awaited one is nearer to its turn. -/
theorem Underway.complete_other (h : Underway others ticket job (files, host, b))
    (hplace : b.pool.active[place]? = some build) (hne : build.ticket ≠ ticket) :
    ∃ ended s', complete place (files, host, b) = (some ended, s') ∧ ended.ticket ≠ ticket ∧
      Underway others ticket job s' ∧ s'.2.2.Busy ∧ s'.2.2.pool.size + 1 = b.pool.size := by
  obtain ⟨result, files', host', hend, heq⟩ := complete_cases files host hplace
  obtain ⟨hsharing, hagree⟩ := h.toSharing.steps (complete_steps others place (files, host, b))
  rw [heq] at hsharing hagree
  obtain ⟨opened, hopened⟩ := h.writable
  have hawaited : Awaited ticket (b.without place build result) := by
    have hmodified := h.awaited.modify (f := fun x => { x with result }) (fun _ => rfl) hne
    exact hmodified.finish (active_modify_self hplace _) hne
  have hpresent : (b.without place build result).pool.departed
      < (b.without place build result).pool.workers := by
    have hcrew := sameCrew_finish (b.modify build.ticket fun x => { x with result }) place
    rw [without, hcrew.departed, hcrew.workers]
    exact h.present
  obtain ⟨hawaited', hhealthy⟩ := hawaited.startMany (h.healthy.endBuild hend)
    (b.without place build result).pool.queue.length
  obtain ⟨hcrew, hsize⟩ := startMany_keeps (b.without place build result).pool.queue.length host'
    (b.without place build result)
  refine ⟨_, _, heq, hne, ⟨hsharing, hawaited', hhealthy, hagree.write h.spared hopened [], ?_⟩, ?_, ?_⟩
  · rw [startAll, hcrew.departed, hcrew.workers]
    exact hpresent
  · exact startMany_busy (Nat.le_refl _) hpresent
  · rw [startAll, hsize]
    exact size_without hplace result

/-- The awaited job ends, and its file is there. -/
theorem Underway.complete_ours (h : Underway others ticket job (files, host, b))
    (huniform : FlatIndex.Uniform job.ids job.vectors)
    (hplace : b.pool.active[place]? = some build) (hticket : build.ticket = ticket) :
    ∃ ended s', complete place (files, host, b) = (some ended, s') ∧ ended.ticket = ticket ∧
      ended.result = some (.ok ()) ∧
      s'.1.stat job.temporary = .ok (.file (FlatIndex.encode job.ids job.vectors)) := by
  obtain ⟨ours, hours, hours_ticket, hkept, hcourse⟩ := h.awaited
  have hmem := mem_tasks_of_active hplace
  obtain rfl : ours = build := h.numbered.eq_of_ticket hours hmem (hours_ticket.trans hticket.symm)
  obtain ⟨due, hdue⟩ := hcourse (List.mem_of_getElem? hplace)
  obtain ⟨opened, hopened⟩ := h.writable
  obtain ⟨written, hwrite⟩ := (FileTree.AgreeOff.refl others (fun _ => False) files).write h.spared
    hopened (FlatIndex.encode job.ids job.vectors)
  have hwrites := h.healthy.endBuild_writes due huniform hwrite
  obtain ⟨result, files', host', hend, heq⟩ := complete_cases files host hplace
  rw [hdue, h.ours ours hmem hticket, Option.getD_some, hwrites] at hend
  cases hend
  refine ⟨_, _, heq, hticket, rfl, ?_⟩
  rw [hkept]
  exact FileTree.stat_of_write hwrite

/-! ## Waiting -/

/-- Whoever waits for a job gives up, or sees it end well. -/
theorem Underway.await (h : Underway others ticket job s) (hbusy : s.2.2.Busy)
    (huniform : FlatIndex.Uniform job.ids job.vectors) {deadline : Option Nat} {n : Nat}
    {answer : Option (Option (Except Error Unit))} (hn : s.2.2.pool.size ≤ n)
    (hawait : Builders.await ticket deadline n s = (answer, s')) :
    (answer = none ∧ deadline.isSome = true) ∨ (answer = some (some (.ok ())) ∧
      s'.1.stat job.temporary = .ok (.file (FlatIndex.encode job.ids job.vectors))) := by
  -- On the number of rounds, which is at least that of the jobs, and every round ends one of them.
  induction n generalizing s with
  | zero =>
    obtain ⟨build, hbuild, -⟩ := h.awaited
    have hempty : s.2.2.tasks.length = 0 := by
      rw [tasks, List.length_append]
      exact Nat.le_zero.mp hn
    rw [List.length_eq_zero_iff.mp hempty] at hbuild
    cases hbuild
  | succ n ih =>
    obtain ⟨files, host, b⟩ := s
    have hactive : b.pool.active ≠ [] := by
      intro hnone
      obtain ⟨build, hbuild, -⟩ := h.awaited
      rcases List.mem_append.mp hbuild with hqueue | hin
      · exact hbusy (List.ne_nil_of_mem hqueue) hnone
      · exact List.ne_nil_of_mem hin hnone
    obtain ⟨place, due, build, hnext, hplace⟩ := next_of_active hactive
    unfold Builders.await at hawait
    simp only [hnext] at hawait
    split at hawait
    · next hlate =>
      cases hawait
      cases deadline with
      | none => cases hlate
      | some deadline => exact Or.inl ⟨rfl, rfl⟩
    · by_cases hticket : build.ticket = ticket
      · obtain ⟨ended, s'', hcomplete, hended, hresult, hfile⟩ :=
          h.complete_ours huniform hplace hticket
        simp only [hcomplete, hended, if_true] at hawait
        cases hawait
        exact Or.inr ⟨congrArg some hresult, hfile⟩
      · obtain ⟨ended, s'', hcomplete, hended, hunderway, hbusy', hsize⟩ :=
          h.complete_other hplace hticket
        simp only [hcomplete, hended, if_false] at hawait
        exact ih hunderway hbusy' (by dsimp only at hn; omega) hawait

/-- The pool takes another job. -/
structure Accepting (b : Builders) : Prop where
  isOpen : b.pool.isShutDown = false
  room : b.pool.queue.length < b.pool.depth

theorem Accepting.submit (h : b.Accepting) (job : BuildJob) :
    ∃ b', b.submit job = some (b.nextTicket, b') := by
  unfold Builders.submit WorkerPool.submit WorkerPool.push
  simp [h.isOpen, Nat.not_le.mpr h.room]

/-- The workers take a job and run it, and those that they have write elsewhere. -/
structure Ready (others : Location → Prop) (s : State) : Prop where
  numbered : s.2.2.Numbered
  staffed : s.2.2.Staffed
  accepting : s.2.2.Accepting
  healthy : s.2.1.Healthy
  within : Within others s.1 s.2.2

theorem Ready.underway (h : Ready others (files, host, b))
    (hspared : files.Spared others job.temporary) {opened : FileTree}
    (hopened : files.create job.temporary = .ok opened) (hsubmit : b.submit job = some (ticket, b')) :
    Underway others ticket job (files, host, b') := by
  refine ⟨sharing_of_submit h.numbered h.within hspared hsubmit, ?_, h.healthy, ⟨opened, hopened⟩, ?_⟩
  · have hmem := (tasks_submit hsubmit).mem_iff.mpr List.mem_cons_self
    obtain ⟨hticket, heq⟩ := submit_cases hsubmit
    refine ⟨_, hmem, hticket.symm, rfl, fun hactive => ?_⟩
    -- The ticket is new, so none of the started builds has it.
    rw [heq] at hactive
    exact absurd (h.numbered.given _ (List.mem_append_right _ hactive)) (Nat.lt_irrefl _)
  · have hcrew := sameCrew_submit hsubmit
    rw [hcrew.departed, hcrew.workers, h.staffed.stay h.accepting.isOpen]
    exact h.staffed.workers

/-- **A job that is accepted ends well, unless somebody gives up waiting for it**: its file is there,
and no file of anybody else has changed. -/
theorem Ready.run_ends (h : Ready others (files, host, b))
    (hspared : files.Spared others job.temporary) {opened : FileTree}
    (hopened : files.create job.temporary = .ok opened)
    (huniform : FlatIndex.Uniform job.ids job.vectors) {timeoutMs : Option Nat}
    {outcome : BuildOutcome} (hrun : run timeoutMs job (files, host, b) = (outcome, s')) :
    (∃ ms, timeoutMs = some ms ∧ outcome = .timedOut ms) ∨ (outcome = .ended (.ok ()) ∧
      s'.1.stat job.temporary = .ok (.file (FlatIndex.encode job.ids job.vectors)) ∧
      files.AgreeOff others (files.Places job.temporary) s'.1) := by
  have hwaited : Waited others job (files, host, b) _ _ := waits_run others timeoutMs job _ h.numbered
  rw [hrun] at hwaited
  obtain ⟨b₁, hsubmit⟩ := h.accepting.submit job
  have hsubmitted : Underway others b.nextTicket job (files, host, b₁) :=
    h.underway hspared hopened hsubmit
  have hbusy : (b₁.startAll host).2.Busy := startMany_busy (Nat.le_refl _) hsubmitted.present
  unfold run at hrun
  simp only [hsubmit] at hrun
  rcases hawait : Builders.await b.nextTicket
      (timeoutMs.map fun ms => (b₁.startAll host).1.elapsed + ms * 1000000)
      (b₁.startAll host).2.pool.size (files, b₁.startAll host) with ⟨answer, after⟩
  rw [hawait] at hrun
  rcases (hsubmitted.startMany _).await hbusy huniform (Nat.le_refl _) hawait with
    ⟨rfl, hdeadline⟩ | ⟨rfl, hfile⟩
  · cases hrun
    cases timeoutMs with
    | none => cases hdeadline
    | some ms => exact Or.inl ⟨ms, rfl, rfl⟩
  · cases hrun
    refine Or.inr ⟨rfl, hfile, ?_⟩
    rcases hwaited.confined h.numbered h.within hspared with ⟨hrefused, -⟩ | ⟨-, hagree, -⟩
    · cases hrefused
    · exact hagree

end Builders

end Sidecar
