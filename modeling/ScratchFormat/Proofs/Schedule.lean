import Mathlib.Data.List.Perm.Basic
import ScratchFormat.Batch.Pool

/-! Batches under any schedule. No move of the workers loses or repeats a reply, so the replies that
have arrived in the end are those of all files, in some order; each is put into the place of its
file, and which order it was does not show. -/

namespace ScratchFormat

namespace Batch

/-- Replies that agree on the file at a place, one of them at least, fill that place. -/
theorem getElem?_foldl_set {rs : List (Nat × Reply)} {slots : List (Option Reply)}
    {i : Nat} {r : Reply} (hi : i < slots.length) (hagree : ∀ r', (i, r') ∈ rs → r' = r)
    (hfilled : (i, r) ∈ rs ∨ slots[i]? = some (some r)) :
    (rs.foldl (fun slots (j, reply) => slots.set j (some reply)) slots)[i]? = some (some r) := by
  induction rs generalizing slots with
  | nil =>
    rcases hfilled with hmem | hslot
    · exact absurd hmem List.not_mem_nil
    · exact hslot
  | cons first rs ih =>
    obtain ⟨j, r'⟩ := first
    apply ih
    · rwa [List.length_set]
    · intro r'' hr''
      exact hagree r'' (List.mem_cons_of_mem _ hr'')
    -- the place is filled by this reply, by a later one, or has been before
    by_cases hj : j = i
    · subst hj
      have hr : r' = r := hagree r' List.mem_cons_self
      right
      rw [hr, List.getElem?_set_self hi]
    · rw [List.getElem?_set_ne hj]
      rcases hfilled with hmem | hslot
      · rcases List.mem_cons.mp hmem with heq | hmem
        · exact absurd (congrArg Prod.fst heq).symm hj
        · exact .inl hmem
      · exact .inr hslot

theorem length_foldl_set (rs : List (Nat × Reply)) (slots : List (Option Reply)) :
    (rs.foldl (fun slots (j, reply) => slots.set j (some reply)) slots).length = slots.length := by
  induction rs generalizing slots with
  | nil => rfl
  | cons first rs ih => rw [List.foldl_cons, ih, List.length_set]

/-- One reply for each file is enough to put them in order, whatever order they come in. -/
theorem gather_of_perm {paths : List Path} {f : Path → Reply} {rs : List (Nat × Reply)}
    (h : rs.Perm (paths.zipIdx.map fun job => (job.2, f job.1))) :
    gather paths rs = paths.map f := by
  have hmem : ∀ i r, (i, r) ∈ rs ↔ ∃ path, paths[i]? = some path ∧ f path = r := by
    intro i r
    rw [h.mem_iff, List.mem_map]
    constructor
    · rintro ⟨⟨path, j⟩, hjob, heq⟩
      obtain ⟨rfl, rfl⟩ := Prod.mk.inj heq
      exact ⟨path, List.mk_mem_zipIdx_iff_getElem?.mp hjob, rfl⟩
    · rintro ⟨path, hpath, rfl⟩
      exact ⟨(path, i), List.mk_mem_zipIdx_iff_getElem?.mpr hpath, rfl⟩
  apply List.ext_getElem?
  intro i
  cases hpath : paths[i]? with
  | none =>
    rw [List.getElem?_map, hpath, Option.map_none, List.getElem?_eq_none_iff]
    have hlen := List.getElem?_eq_none_iff.mp hpath
    simp only [gather, List.length_map, List.length_zip, length_foldl_set]
    omega
  | some path =>
    obtain ⟨hi, -⟩ := List.getElem?_eq_some_iff.mp hpath
    have hagree : ∀ r', (i, r') ∈ rs → r' = f path := by
      intro r' hr'
      obtain ⟨path', hpath', rfl⟩ := (hmem i r').mp hr'
      rw [hpath] at hpath'
      rw [Option.some.inj hpath']
    have hlen : i < (paths.map fun _ => (none : Option Reply)).length := by rwa [List.length_map]
    have hslot := getElem?_foldl_set hlen hagree (.inl ((hmem i (f path)).mpr ⟨path, hpath, rfl⟩))
    rw [List.getElem?_map, hpath, gather, List.getElem?_map]
    apply Option.map_eq_some_iff.mpr
    exact ⟨(some (f path), path), List.getElem?_zip_eq_some.mpr ⟨hslot, hpath⟩, rfl⟩

theorem formatFiles_eq_map (disk : Disk) (style : Style) (paths : List Path) :
    formatFiles disk style paths = paths.map (formatFile disk style) := by
  unfold formatFiles
  split
  · rfl
  · exact gather_of_perm (.refl _)

namespace Pool

variable {disk : Disk} {style : Style} {paths : List Path} {pool next : Pool} {move : Move}

/-- What a move does: one file or reply goes from one list to the end of another. -/
theorem step?_cases (h : pool.step? disk style move = some next) :
    (∃ job ahead, pool.ahead = job :: ahead ∧ pool.workers = 0 ∧
      next = { pool with ahead, channel := pool.channel ++ [answerTo disk style job] }) ∨
    (∃ job ahead, pool.ahead = job :: ahead ∧ 0 < pool.workers ∧
      next = { pool with ahead, queue := pool.queue ++ [job] }) ∨
    (∃ job queue, pool.queue.Perm (job :: queue) ∧
      next = { pool with queue, busy := pool.busy ++ [job] }) ∨
    (∃ job busy, pool.busy.Perm (job :: busy) ∧
      next = { pool with busy, channel := pool.channel ++ [answerTo disk style job] }) ∨
    (∃ reply channel, pool.channel = reply :: channel ∧ pool.ahead = [] ∧
      next = { pool with channel, arrived := pool.arrived ++ [reply] }) := by
  have hpick : ∀ {jobs : List Job} {place : Nat} {job : Job}, jobs[place]? = some job →
      jobs.Perm (job :: jobs.eraseIdx place) := by
    intro jobs place job hjob
    obtain ⟨hlt, rfl⟩ := List.getElem?_eq_some_iff.mp hjob
    exact (List.getElem_cons_eraseIdx_perm hlt).symm
  cases move with
  | submit =>
    rw [step?] at h
    split at h
    · cases h
    · rename_i job ahead hahead
      split at h
      · rename_i hworkers
        exact .inl ⟨job, ahead, hahead, hworkers, (Option.some.inj h).symm⟩
      · rename_i hworkers
        exact .inr
          (.inl ⟨job, ahead, hahead, Nat.pos_of_ne_zero hworkers, (Option.some.inj h).symm⟩)
  | take place =>
    rw [step?] at h
    split at h
    · obtain ⟨job, hjob, heq⟩ := Option.map_eq_some_iff.mp h
      exact .inr (.inr (.inl ⟨job, _, hpick hjob, heq.symm⟩))
    · cases h
  | answer place =>
    rw [step?] at h
    obtain ⟨job, hjob, heq⟩ := Option.map_eq_some_iff.mp h
    exact .inr (.inr (.inr (.inl ⟨job, _, hpick hjob, heq.symm⟩)))
  | receive =>
    rw [step?] at h
    split at h
    · rename_i reply channel hahead hchannel
      exact .inr (.inr (.inr (.inr ⟨reply, channel, hchannel, hahead, (Option.some.inj h).symm⟩)))
    · cases h

def answers (disk : Disk) (style : Style) (pool : Pool) : List (Nat × Reply) :=
  (pool.ahead ++ pool.queue ++ pool.busy).map (answerTo disk style) ++ pool.channel ++ pool.arrived

/-- How many moves there are still to make, at the most. -/
def left (pool : Pool) : Nat :=
  4 * pool.ahead.length + 3 * pool.queue.length + 2 * pool.busy.length + pool.channel.length

/-- No move loses or repeats a reply. -/
theorem answers_step? (h : pool.step? disk style move = some next) :
    (next.answers disk style).Perm (pool.answers disk style) := by
  classical
  rw [List.perm_iff_count]
  intro answer
  rcases step?_cases h with ⟨job, ahead, hahead, -, rfl⟩ | ⟨job, ahead, hahead, -, rfl⟩ |
    ⟨job, queue, hqueue, rfl⟩ | ⟨job, busy, hbusy, rfl⟩ | ⟨reply, channel, hchannel, -, rfl⟩
  · simp only [answers, hahead, List.map_append, List.map_cons, List.count_append, List.count_cons,
      List.count_nil]
    omega
  · simp only [answers, hahead, List.map_append, List.map_cons, List.map_nil, List.count_append,
      List.count_cons, List.count_nil]
    omega
  · have hcount := (hqueue.map (answerTo disk style)).count_eq answer
    simp only [answers, hcount, List.map_append, List.map_cons, List.map_nil, List.count_append,
      List.count_cons, List.count_nil]
    omega
  · have hcount := (hbusy.map (answerTo disk style)).count_eq answer
    simp only [answers, hcount, List.map_append, List.map_cons, List.count_append, List.count_cons,
      List.count_nil]
    omega
  · simp only [answers, hchannel, List.count_append, List.count_cons, List.count_nil]
    omega

/-- Every move is one less to make. -/
theorem left_step? (h : pool.step? disk style move = some next) : next.left < pool.left := by
  rcases step?_cases h with ⟨job, ahead, hahead, -, rfl⟩ | ⟨job, ahead, hahead, -, rfl⟩ |
    ⟨job, queue, hqueue, rfl⟩ | ⟨job, busy, hbusy, rfl⟩ | ⟨reply, channel, hchannel, -, rfl⟩
  · simp only [left, hahead, List.length_append, List.length_cons, List.length_nil]
    omega
  · simp only [left, hahead, List.length_append, List.length_cons, List.length_nil]
    omega
  · simp only [left, hqueue.length_eq, List.length_append, List.length_cons, List.length_nil]
    omega
  · simp only [left, hbusy.length_eq, List.length_append, List.length_cons, List.length_nil]
    omega
  · simp only [left, hchannel, List.length_cons]
    omega

def IsStaffed (pool : Pool) : Prop := pool.queue ≠ [] → 0 < pool.workers

/-- While paths wait, a pool keeps a worker for them. -/
theorem isStaffed_step? (h : pool.step? disk style move = some next) (hstaffed : pool.IsStaffed) :
    next.IsStaffed := by
  rcases step?_cases h with ⟨job, ahead, -, -, rfl⟩ | ⟨job, ahead, -, hworkers, rfl⟩ |
    ⟨job, queue, hqueue, rfl⟩ | ⟨job, busy, -, rfl⟩ | ⟨reply, channel, -, -, rfl⟩
  · exact hstaffed
  · exact fun _ => hworkers
  · intro _
    apply hstaffed
    intro hnil
    rw [hnil] at hqueue
    exact absurd hqueue.symm.eq_nil (List.cons_ne_nil _ _)
  · exact hstaffed
  · exact hstaffed

/-- As long as a reply has not arrived, someone can move. -/
theorem exists_step? (hstaffed : pool.IsStaffed) (hdone : pool.isDone = false) :
    ∃ move, (pool.step? disk style move).isSome = true := by
  cases hahead : pool.ahead with
  | cons job ahead =>
    refine ⟨.submit, ?_⟩
    simp only [step?, hahead]
    split <;> rfl
  | nil =>
    cases hchannel : pool.channel with
    | cons reply channel =>
      refine ⟨.receive, ?_⟩
      simp only [step?, hahead, hchannel]
      rfl
    | nil =>
      cases hbusy : pool.busy with
      | cons job busy =>
        refine ⟨.answer 0, ?_⟩
        simp only [step?, hbusy]
        rfl
      | nil =>
        -- nobody is busy, so a worker is free for what waits
        have hqueue : pool.queue ≠ [] := by
          intro hnil
          simp [isDone, hahead, hchannel, hbusy, hnil] at hdone
        obtain ⟨job, queue, hjob⟩ := List.exists_cons_of_ne_nil hqueue
        refine ⟨.take 0, ?_⟩
        have hfree : pool.busy.length < pool.workers := by
          rw [hbusy]
          exact hstaffed hqueue
        rw [step?, if_pos hfree, hjob]
        rfl

/-- What holds all along a schedule: nothing is lost, and the moves made are moves less to make. -/
theorem run?_keeps {moves : List Move} (h : pool.run? disk style moves = some next)
    (hstaffed : pool.IsStaffed) :
    (next.answers disk style).Perm (pool.answers disk style) ∧ next.IsStaffed ∧
      moves.length + next.left ≤ pool.left := by
  induction moves generalizing pool with
  | nil =>
    obtain rfl := Option.some.inj h
    exact ⟨.refl _, hstaffed, by simp⟩
  | cons move moves ih =>
    obtain ⟨middle, hstep, hrun⟩ := Option.bind_eq_some_iff.mp h
    obtain ⟨hanswers, hlater, hleft⟩ := ih hrun (isStaffed_step? hstep hstaffed)
    refine ⟨hanswers.trans (answers_step? hstep), hlater, ?_⟩
    have hless := left_step? hstep
    rw [List.length_cons]
    omega

theorem answers_start (disk : Disk) (style : Style) (workers : Nat) (paths : List Path) :
    (start workers paths).answers disk style = paths.zipIdx.map (answerTo disk style) := by
  simp [answers, start]

theorem answers_of_isDone (h : pool.isDone = true) : pool.answers disk style = pool.arrived := by
  simp only [isDone, Bool.and_eq_true, List.isEmpty_iff] at h
  obtain ⟨⟨⟨hahead, hqueue⟩, hbusy⟩, hchannel⟩ := h
  simp [answers, hahead, hqueue, hbusy, hchannel]

end Pool

theorem workerReply_of_ok {disk : Disk} {style : Style} {path : Path} {reply : Reply}
    (h : formatFileBounded disk style path = .ok reply) : workerReply disk style path = reply := by
  rw [workerReply, h]

/-- If every file is dealt with, so are all files in their order. -/
theorem mapM_formatFileBounded {disk : Disk} {style : Style} {paths : List Path}
    (h : ∀ path ∈ paths, ∃ reply, formatFileBounded disk style path = .ok reply) :
    paths.mapM (formatFileBounded disk style) = .ok (paths.map (workerReply disk style)) := by
  induction paths with
  | nil => rfl
  | cons path paths ih =>
    obtain ⟨reply, hreply⟩ := h path List.mem_cons_self
    have hrest := ih fun p hp => h p (List.mem_cons_of_mem path hp)
    rw [List.mapM_cons, hreply, hrest, List.map_cons, workerReply_of_ok hreply]
    rfl

/-- However the workers take the files of a batch and whenever their replies arrive, the batch comes
to an end. Each file then has its own reply, the one that it gets when it is formatted alone, and so
it is with fewer than two files, which are formatted without workers. -/
theorem formatFiles_any_schedule (disk : Disk) (style : Style) (paths : List Path) (workers : Nat)
    (moves : List Move) (pool : Pool)
    (hrun : (Pool.start workers paths).run? disk style moves = some pool) :
    moves.length ≤ 4 * paths.length ∧
      (pool.isDone = false → ∃ move, (pool.step? disk style move).isSome = true) ∧
      (pool.isDone = true →
        (gather paths pool.arrived).length = paths.length ∧
        (∀ (i : Nat) (path : Path), paths[i]? = some path → ∃ reply,
          (gather paths pool.arrived)[i]? = some reply ∧
            ∀ own, formatFileBounded disk style path = .ok own → reply = own) ∧
        (2 ≤ paths.length ∨ (∀ path ∈ paths, ∃ own, formatFileBounded disk style path = .ok own) →
          formatFilesBounded disk style paths = .ok (gather paths pool.arrived))) := by
  have hstaffed : (Pool.start workers paths).IsStaffed := fun hqueue => absurd rfl hqueue
  obtain ⟨hanswers, hstill, hleft⟩ := Pool.run?_keeps hrun hstaffed
  refine ⟨?_, Pool.exists_step? hstill, ?_⟩
  · have hstart : (Pool.start workers paths).left = 4 * paths.length := by
      simp [Pool.left, Pool.start]
    omega
  · intro hdone
    rw [Pool.answers_of_isDone hdone, Pool.answers_start] at hanswers
    have hgather : gather paths pool.arrived = paths.map (workerReply disk style) :=
      gather_of_perm hanswers
    rw [hgather]
    refine ⟨List.length_map .., ?_, ?_⟩
    · intro i path hpath
      refine ⟨workerReply disk style path, by rw [List.getElem?_map, hpath, Option.map_some], ?_⟩
      intro own hown
      exact workerReply_of_ok hown
    · intro hall
      unfold formatFilesBounded
      split
      · rename_i hfew
        apply mapM_formatFileBounded
        rcases hall with htwo | hall
        · omega
        · exact hall
      · exact congrArg Except.ok (gather_of_perm (.refl _))

/-- A folder with two files, of which one cannot be read as text. -/
def twoFiles : Disk :=
  ⟨.file "a.u".toList (Utf8.encode "x=1".toList) (.file "b.u".toList [0xff] .empty), []⟩

/-- Two workers take the first two of four files, and the first file is the last to be answered
for. -/
def slowFirst : List Move :=
  [.submit, .submit, .take 0, .take 0, .submit, .answer 1, .submit, .take 1, .answer 1, .take 0,
    .answer 1, .answer 0, .receive, .receive, .receive, .receive]

theorem formatFiles_slowFirst :
    let paths : List Path := ["a.u".toList, "b.u".toList, "c.u".toList, "a.u".toList]
    ∃ pool, (Pool.start 2 paths).run? twoFiles .standard slowFirst = some pool ∧
      pool.isDone = true ∧ pool.arrived.map Prod.fst = [1, 3, 2, 0] ∧
      formatFilesBounded twoFiles .standard paths = .ok (gather paths pool.arrived) := by
  intro paths
  refine ⟨_, rfl, rfl, rfl, ?_⟩
  exact ((formatFiles_any_schedule twoFiles .standard _ 2 slowFirst _ rfl).2.2 rfl).2.2
    (.inl (by decide))

end Batch

end ScratchFormat
