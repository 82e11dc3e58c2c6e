import Ezcfg.Shm.MarketData

/-!
# Market data comes out as it was put in

The memory, the head, the tail and the number of free units represent a queue of units. A
unit is appended or taken one by one, and the number of free units is brought up to date
at once or with each unit; a write that fails leaves its unit and those behind it in the
queue.
-/

namespace Ezcfg.Shm

open Foundation RingBuffer

/-- The memory has a queue between its head and its tail. -/
structure Ring (shm : EzcfgShm) (queued : List (List UInt8)) : Prop where
  cells : ∃ cells, Cells shm.cqUnitSize cells shm.memory ∧ cells.length = shm.cqLength ∧
    Holds cells shm.cqHead queued
  cqHead : shm.cqHead < shm.cqLength
  cqTail : shm.cqTail = (shm.cqHead + queued.length) % shm.cqLength

/-- The number of the free units is right as well. -/
structure Represents (shm : EzcfgShm) (queued : List (List UInt8)) : Prop where
  ring : Ring shm queued
  cqFree : shm.cqFree + queued.length = shm.cqLength

section Units

variable {shm : EzcfgShm} {queued : List (List UInt8)}

/-- A queue is not longer than there are cells. -/
theorem Ring.fits (ring : Ring shm queued) : queued.length ≤ shm.cqLength := by
  obtain ⟨cells, -, length, holds⟩ := ring.cells
  rw [← length]
  exact holds.fits

/-- A unit is written behind the last one. -/
theorem Ring.push (ring : Ring shm queued) (room : queued.length < shm.cqLength)
    {unit : List UInt8} (sized : unit.length = shm.cqUnitSize) :
    ∃ memory, ByteArea.write shm.memory (shm.cqTail * shm.cqUnitSize) unit = some memory ∧
      Ring { shm with memory, cqTail := (shm.cqTail + 1) % shm.cqLength } (queued ++ [unit]) := by
  obtain ⟨⟨cells, cut, length, holds⟩, cqHead, cqTail⟩ := ring
  have inside : shm.cqTail < cells.length := by
    rw [cqTail, length]
    exact Nat.mod_lt _ (by omega)
  obtain ⟨memory, written, next⟩ := cut.write inside sized
  have pushed := holds.push (by rw [length]; exact room) unit
  rw [length, ← cqTail] at pushed
  refine ⟨memory, written, ⟨_, next, ?_, pushed⟩, cqHead, ?_⟩
  · rw [List.length_set]
    exact length
  · show (shm.cqTail + 1) % shm.cqLength = _
    rw [cqTail, Nat.mod_add_mod, List.length_append]
    rfl

/-- The first unit is read at the head, and the queue goes on behind it. -/
theorem Ring.pop {unit : List UInt8} (ring : Ring shm (unit :: queued)) :
    ByteArea.readAt shm.memory (shm.cqHead * shm.cqUnitSize) shm.cqUnitSize = some unit ∧
      Ring { shm with cqHead := (shm.cqHead + 1) % shm.cqLength } queued := by
  obtain ⟨⟨cells, cut, length, holds⟩, cqHead, cqTail⟩ := ring
  have cell := holds.head
  rw [length, Nat.mod_eq_of_lt cqHead] at cell
  refine ⟨cut.read cell, ⟨cells, cut, length, ?_⟩, Nat.mod_lt _ (by omega), ?_⟩
  · refine holds.pop.move ?_
    rw [length]
    exact Nat.mod_modEq _ _
  · show shm.cqTail = ((shm.cqHead + 1) % shm.cqLength + queued.length) % shm.cqLength
    rw [Nat.mod_add_mod, cqTail, List.length_cons]
    congr 1
    omega

/-- The units of the data go into the queue one by one. The induction is on the turns that
are left; the units in front of the place have been copied. -/
theorem Ring.copyIn {data : List UInt8} {units : List (List UInt8)} (turns i : Nat)
    (ring : Ring shm queued) (source : Cells shm.cqUnitSize units data)
    (left : i + turns = units.length) (room : queued.length + turns ≤ shm.cqLength) :
    ∃ memory cqTail, copyIn data shm.cqUnitSize turns i shm = some { shm with memory, cqTail } ∧
      Ring { shm with memory, cqTail } (queued ++ units.drop i) := by
  induction turns generalizing shm queued i with
  | zero =>
    refine ⟨shm.memory, shm.cqTail, rfl, ?_⟩
    rw [List.drop_of_length_le (by omega), List.append_nil]
    exact ring
  | succ turns inductionHypothesis =>
    have inside : i < units.length := by omega
    have present := List.getElem?_eq_getElem inside
    have sized := source.uniform _ (List.getElem_mem inside)
    obtain ⟨memory, written, pushed⟩ := ring.push (by omega) sized
    have still : (queued ++ [units[i]]).length + turns ≤ shm.cqLength := by
      rw [List.length_append, List.length_singleton]
      omega
    obtain ⟨memory', cqTail', copied, next⟩ :=
      inductionHypothesis (i + 1) pushed source (by omega) still
    refine ⟨memory', cqTail', ?_, ?_⟩
    · rw [Shm.copyIn, bind_of_some (source.read present), bind_of_some written]
      exact copied
    · rw [List.append_assoc, List.singleton_append, List.getElem_cons_drop] at next
      exact next

/-- The units of the queue are handed out one by one. -/
theorem Ring.copyOut (taken : List (List UInt8)) (ring : Ring shm (taken ++ queued)) :
    ∃ cqHead, copyOut shm.cqUnitSize taken.length shm = some (taken, { shm with cqHead }) ∧
      Ring { shm with cqHead } queued := by
  induction taken generalizing shm with
  | nil => exact ⟨shm.cqHead, rfl, ring⟩
  | cons unit others inductionHypothesis =>
    obtain ⟨read, popped⟩ := ring.pop
    obtain ⟨cqHead, copied, next⟩ := inductionHypothesis popped
    refine ⟨cqHead, ?_, next⟩
    rw [List.length_cons, Shm.copyOut, bind_of_some read, bind_of_some copied]
    rfl

/-- The units of the queue are written one by one, until one is not written. -/
theorem Represents.writeOut (writes : Nat) (represents : Represents shm queued) :
    ∃ ended written rest cqHead cqFree, queued = written ++ rest ∧
      writeOut shm.cqUnitSize queued.length writes shm =
        some (ended, written, { shm with cqHead, cqFree }) ∧
      Represents { shm with cqHead, cqFree } rest := by
  induction queued generalizing shm writes with
  | nil => exact ⟨true, [], [], shm.cqHead, shm.cqFree, rfl, rfl, represents⟩
  | cons unit others inductionHypothesis =>
    obtain ⟨ring, counted⟩ := represents
    obtain ⟨read, popped⟩ := ring.pop
    cases writes with
    | zero =>
      refine ⟨false, [], unit :: others, shm.cqHead, shm.cqFree, rfl, ?_, ring, counted⟩
      rw [List.length_cons, Shm.writeOut, bind_of_some read]
      rfl
    | succ writes =>
      have next : Represents { shm with
          cqHead := (shm.cqHead + 1) % shm.cqLength, cqFree := shm.cqFree + 1 } others := by
        refine ⟨⟨popped.cells, popped.cqHead, popped.cqTail⟩, ?_⟩
        show shm.cqFree + 1 + others.length = shm.cqLength
        rw [List.length_cons] at counted
        omega
      obtain ⟨ended, written, rest, cqHead, cqFree, rfl, wrote, last⟩ :=
        inductionHypothesis writes next
      refine ⟨ended, unit :: written, rest, cqHead, cqFree, rfl, ?_, last⟩
      rw [List.length_cons, Shm.writeOut, bind_of_some read]
      dsimp only
      rw [bind_of_some wrote]
      rfl

/-- Inserting units appends them, or leaves the queue as it is. -/
theorem Represents.insert (represents : Represents shm queued) (attach : Bool)
    {data : List UInt8} {units : List (List UInt8)} (source : Cells shm.cqUnitSize units data)
    (nonempty : 0 < units.length) (sized : 0 < shm.cqUnitSize) :
    insertMarketData attach shm data units.length shm.cqUnitSize = some (false, shm) ∨
      ∃ after, insertMarketData attach shm data units.length shm.cqUnitSize =
        some (true, after) ∧ Represents after (queued ++ units) ∧
        after.cqUnitSize = shm.cqUnitSize := by
  obtain ⟨ring, counted⟩ := represents
  rw [insertMarketData, bind_of_some (ensure_of nonempty), bind_of_some (ensure_of sized)]
  split_ifs with granted attached
  · right
    obtain ⟨memory, cqTail, copied, next⟩ :=
      ring.copyIn units.length 0 source (Nat.zero_add _) (by omega)
    refine ⟨_, bind_of_some copied, ⟨⟨next.cells, next.cqHead, next.cqTail⟩, ?_⟩, rfl⟩
    show shm.cqFree - units.length + (queued ++ units).length = shm.cqLength
    rw [List.length_append]
    omega
  · exact .inl rfl
  · exact .inl rfl

/-- Removing units hands out all of the queue or drops it, or leaves it as it is. -/
theorem Represents.remove (represents : Represents shm queued) (attach memory output : Bool) :
    removeMarketData attach memory output shm = some (false, [], shm) ∨
      ∃ after, removeMarketData attach memory output shm =
        some (true, if output then queued else [], after) ∧ Represents after [] ∧
        after.cqUnitSize = shm.cqUnitSize := by
  obtain ⟨ring, counted⟩ := represents
  have count : shm.cqLength - shm.cqFree = queued.length := by omega
  rw [removeMarketData]
  simp only [count]
  split_ifs with units attached wanted granted
  · right
    have all : Ring shm (queued ++ []) := by
      rw [List.append_nil]
      exact ring
    obtain ⟨cqHead, copied, next⟩ := all.copyOut queued
    refine ⟨_, bind_of_some copied, ⟨⟨next.cells, next.cqHead, next.cqTail⟩, ?_⟩, rfl⟩
    show shm.cqFree + queued.length + 0 = shm.cqLength
    omega
  · exact .inl rfl
  · right
    obtain ⟨⟨cells, cut, length, holds⟩, cqHead, cqTail⟩ := ring
    have inside : shm.cqTail < shm.cqLength := by
      rw [cqTail]
      exact Nat.mod_lt _ (by omega)
    refine ⟨_, rfl, ⟨⟨⟨cells, cut, length, .empty _ _⟩, inside, ?_⟩, ?_⟩, rfl⟩
    · exact (Nat.mod_eq_of_lt inside).symm
    · show shm.cqFree + queued.length + 0 = shm.cqLength
      omega
  all_goals exact .inl rfl

/-- Saving units writes the first ones of the queue. -/
theorem Represents.save (represents : Represents shm queued) (attach : Bool) (writes : Nat)
    (flag : UInt32) (sized : 0 < shm.cqUnitSize) :
    ∃ ended written rest after, queued = written ++ rest ∧
      saveMarketData attach writes shm shm.cqUnitSize flag = some (ended, written, after) ∧
      Represents after rest ∧ after.cqUnitSize = shm.cqUnitSize := by
  have counted := represents.cqFree
  have count : shm.cqLength - shm.cqFree = queued.length := by omega
  rw [saveMarketData, bind_of_some (ensure_of sized)]
  simp only [count]
  split_ifs with wanted attached
  · obtain ⟨ended, written, rest, cqHead, cqFree, parts, wrote, next⟩ := represents.writeOut writes
    exact ⟨ended, written, rest, _, parts, wrote, next, rfl⟩
  · exact ⟨false, [], queued, shm, rfl, rfl, represents, rfl⟩
  · exact ⟨false, [], queued, shm, rfl, rfl, represents, rfl⟩

/-- The units between the head and the tail, as they are in the memory. -/
def queuedUnits (shm : EzcfgShm) : List (List UInt8) :=
  (List.range (shm.cqLength - shm.cqFree)).map fun i =>
    (shm.memory.drop ((shm.cqHead + i) % shm.cqLength * shm.cqUnitSize)).take shm.cqUnitSize

/-- They are the queue. -/
theorem Represents.queuedUnits (represents : Represents shm queued) : queuedUnits shm = queued := by
  obtain ⟨⟨⟨cells, cut, length, holds⟩, -, -⟩, counted⟩ := represents
  have count : shm.cqLength - shm.cqFree = queued.length := by omega
  rw [Shm.queuedUnits, count]
  apply List.ext_getElem
  · rw [List.length_map, List.length_range]
  · intro i _ inside
    have stored := holds.stored i inside
    rw [length] at stored
    rw [List.getElem_map, List.getElem_range]
    exact cut.taken stored

end Units

/-- What was inserted so far, and what is not in the queue any more: the units that were
handed out, written or dropped. -/
structure History where
  inserted : List (List UInt8) := []
  gone : List (List UInt8) := []

/-- The history behind a call. A removal without an output drops all that is left. -/
def History.update (history : History) (op : Op) (answer : Answer) : History :=
  match op with
  | .insert _ data n size =>
    if answer.flag then
      { history with inserted := history.inserted ++ Cells.first size n data }
    else history
  | .remove _ _ output =>
    if answer.flag ∧ output = false then { history with gone := history.inserted }
    else { history with gone := history.gone ++ answer.units }
  | .save _ _ _ _ => { history with gone := history.gone ++ answer.units }

/-- What holds behind a call: the three views of the queue agree, a unit that was inserted
is gone or in the queue, in the order of the insertions, and a call that is refused changes
nothing, if it is not to save. -/
def Demand (history : History) (shm : EzcfgShm) (op : Op) (answer : Answer) (after : EzcfgShm) :
    Prop :=
  after.cqFree ≤ after.cqLength ∧
    after.cqTail = (after.cqHead + after.cqLength - after.cqFree) % after.cqLength ∧
    (history.update op answer).gone ++ queuedUnits after = (history.update op answer).inserted ∧
    (answer.flag = false → op.saves = false → after = shm)

instance (history : History) (shm : EzcfgShm) (op : Op) (answer : Answer) (after : EzcfgShm) :
    Decidable (Demand history shm op answer after) :=
  inferInstanceAs (Decidable (_ ∧ _ ∧ _ ∧ (_ → _ → _)))

/-- The calls with units of the size of the queue. -/
def Proper (unitSize : Nat) : Op → Prop
  | .insert _ data n size => size = unitSize ∧ 0 < n ∧ data.length = n * size
  | .remove _ _ _ => True
  | .save _ _ size _ => size = unitSize

/-- A history and the queue that is left of it. -/
def Related (unitSize : Nat) (history : History) (shm : EzcfgShm) : Prop :=
  ∃ queued, Represents shm queued ∧ history.gone ++ queued = history.inserted ∧
    shm.cqUnitSize = unitSize

/-- A queue that is related to the history behind a call is as demanded. -/
theorem demand_of_related {unitSize : Nat} {history : History} {shm : EzcfgShm} {op : Op}
    {answer : Answer} {after : EzcfgShm} (related : Related unitSize (history.update op answer) after)
    (refused : answer.flag = false → op.saves = false → after = shm) : Demand history shm op answer after := by
  obtain ⟨queued, represents, parts, -⟩ := related
  have counted := represents.cqFree
  refine ⟨by omega, ?_, ?_, refused⟩
  · rw [represents.ring.cqTail]
    congr 1
    omega
  · rw [represents.queuedUnits]
    exact parts

/-- Every call with proper units goes as demanded. -/
theorem step_related {unitSize : Nat} (positive : 0 < unitSize) (history : History) (shm : EzcfgShm)
    (op : Op) (related : Related unitSize history shm) (proper : Proper unitSize op) :
    ∃ answer after, step shm op = some (answer, after) ∧ Demand history shm op answer after ∧
      Related unitSize (history.update op answer) after := by
  obtain ⟨queued, represents, parts, rfl⟩ := related
  cases op with
  | insert attach data n size =>
    obtain ⟨rfl, nonempty, sized⟩ := proper
    have source := Cells.first_cells (Nat.le_of_eq sized.symm)
    have count := Cells.first_length shm.cqUnitSize n data
    rw [← count] at nonempty
    have inserted := represents.insert attach source nonempty positive
    rw [count] at inserted
    obtain refused | ⟨after, done, next, same⟩ := inserted
    · have kept : Related shm.cqUnitSize history shm := ⟨queued, represents, parts, rfl⟩
      exact ⟨⟨false, []⟩, shm, bind_of_some refused, demand_of_related kept fun _ _ => rfl, kept⟩
    · have kept : Related shm.cqUnitSize (history.update (.insert attach data n shm.cqUnitSize)
          ⟨true, []⟩) after := by
        refine ⟨_, next, ?_, same⟩
        show history.gone ++ (queued ++ _) = history.inserted ++ _
        rw [← List.append_assoc, parts]
      exact ⟨⟨true, []⟩, after, bind_of_some done, demand_of_related kept (by rintro ⟨⟩), kept⟩
  | remove attach memory output =>
    obtain refused | ⟨after, done, next, same⟩ := represents.remove attach memory output
    · have kept : Related shm.cqUnitSize (history.update (.remove attach memory output)
          ⟨false, []⟩) shm := by
        refine ⟨queued, represents, ?_, rfl⟩
        show history.gone ++ [] ++ queued = history.inserted
        rw [List.append_nil, parts]
      exact ⟨⟨false, []⟩, shm, bind_of_some refused, demand_of_related kept fun _ _ => rfl, kept⟩
    · have kept : Related shm.cqUnitSize (history.update (.remove attach memory output)
          ⟨true, if output then queued else []⟩) after := by
        refine ⟨[], next, ?_, same⟩
        rw [List.append_nil]
        cases output with
        | false => rfl
        | true => exact parts
      exact ⟨_, after, bind_of_some done, demand_of_related kept (by rintro ⟨⟩), kept⟩
  | save attach writes size flag =>
    obtain rfl : size = shm.cqUnitSize := proper
    obtain ⟨ended, written, rest, after, rfl, done, next, same⟩ :=
      represents.save attach writes flag positive
    have kept : Related shm.cqUnitSize (history.update
        (.save attach writes shm.cqUnitSize flag) ⟨ended, written⟩) after := by
      refine ⟨rest, next, ?_, same⟩
      show history.gone ++ written ++ rest = history.inserted
      rw [List.append_assoc, parts]
    exact ⟨⟨ended, written⟩, after, bind_of_some done,
      demand_of_related kept (fun _ other => by cases other), kept⟩

end Ezcfg.Shm
