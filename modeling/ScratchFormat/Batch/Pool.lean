import ScratchFormat.Batch.Bounded

/-! The workers of a batch. Files are handed over one after another, a free worker takes one of
those that wait, and its reply is put down when it arrives. Which worker is the next to move is left
open: a schedule is a list of moves. -/

namespace ScratchFormat

namespace Batch

abbrev Job := Path × Nat

structure Pool where
  /-- How many workers there are. -/
  workers : Nat
  /-- The files that have not been handed over. -/
  ahead : List Job
  /-- The files that wait for a worker. -/
  queue : List Job
  /-- The files that workers are busy with. -/
  busy : List Job
  /-- The replies on their way. -/
  channel : List (Nat × Reply)
  /-- The replies that have arrived. -/
  arrived : List (Nat × Reply)

inductive Move
  /-- The next file is handed over. -/
  | submit
  /-- A worker takes the file at a place of the queue. -/
  | take (place : Nat)
  /-- The worker at a place answers for its file. -/
  | answer (place : Nat)
  /-- The oldest reply on its way arrives. -/
  | receive
  deriving DecidableEq

def answerTo (disk : Disk) (style : Style) (job : Job) : Nat × Reply :=
  (job.2, workerReply disk style job.1)

namespace Pool

def start (workers : Nat) (paths : List Path) : Pool := ⟨workers, paths.zipIdx, [], [], [], []⟩

/-- One move, if it is possible. Without workers a file is formatted as it is handed over; replies
are waited for once all files have been. -/
def step? (disk : Disk) (style : Style) (pool : Pool) : Move → Option Pool
  | .submit =>
    match pool.ahead with
    | [] => none
    | job :: ahead =>
      if pool.workers = 0 then
        some { pool with ahead, channel := pool.channel ++ [answerTo disk style job] }
      else some { pool with ahead, queue := pool.queue ++ [job] }
  | .take place =>
    if pool.busy.length < pool.workers then
      pool.queue[place]?.map fun job =>
        { pool with queue := pool.queue.eraseIdx place, busy := pool.busy ++ [job] }
    else none
  | .answer place =>
    pool.busy[place]?.map fun job =>
      { pool with
        busy := pool.busy.eraseIdx place
        channel := pool.channel ++ [answerTo disk style job] }
  | .receive =>
    match pool.ahead, pool.channel with
    | [], reply :: channel => some { pool with channel, arrived := pool.arrived ++ [reply] }
    | _, _ => none

def run? (disk : Disk) (style : Style) (pool : Pool) : List Move → Option Pool
  | [] => some pool
  | move :: moves => do (← pool.step? disk style move).run? disk style moves

def isDone (pool : Pool) : Bool :=
  pool.ahead.isEmpty && pool.queue.isEmpty && pool.busy.isEmpty && pool.channel.isEmpty

end Pool

end Batch

end ScratchFormat
