import PgAqp.Hash.HtabSpec

/-!
# Where a running call stands in its bucket

With sorted buckets the node of the left link has a smaller key, and what a call has
reached decides whether its key was in the table at some moment of its life.

Two more situations are left out here.  An insertion that waits must not win its swap in
front of a smaller key.  And the sentinel test reads the key of a node, so it has to agree
with the value.
-/

namespace PgAqp.Hash

open Library

variable (t : Table) (history : List Moment) (m : Memory) (f : Frame)

/-- An insertion that wins its swap stands in front of a key that is not smaller. -/
def InsertsInOrder : Prop :=
  f.pc = .casInsert → m.read f.left = f.leftNext →
    ∀ a ∈ f.cur.node, f.key ≤ m.keyOf a
  deriving Decidable

/-- The sentinel test agrees with the value wherever its answer is used. -/
def ChecksValue : Prop :=
  f.pc = .readNext ∨ f.pc = .rereadNext → f.action ≠ .remove →
    ∀ a ∈ f.cur.node, m.keyOf a = f.key → ¬ m.Marked a →
      t.passesSentinel m a = !t.isSentinel (m.elems a).value
  deriving Decidable

/-- The current node has the key and has been in the bucket. -/
def Found : Prop :=
  ∀ a, f.cur.node = some a →
    Visited history (t.bucketOf f.key) a ∧ m.keyOf a = f.key

/-- The value of the current node allows its removal. -/
def Removable : Prop :=
  ∀ a, f.cur.node = some a → t.hasSentinelValue = true →
    (m.elems a).value = t.sentinelValue

/-- Where the call stands, for every program point. -/
def Located : Prop :=
  match f.pc with
  | .readBucket => True
  | .readNext =>
    LeftAt t history m f.key f.left ∧
      Ahead t history m f.key f.cur.node
  | .reread => LeftAt t history m f.key f.left
  | .rereadNext =>
    LeftAt t history m f.key f.left ∧
      Ahead t history m f.key f.cur.node
  | .casInsert =>
    LeftAt t history m f.key f.left ∧
      Ahead t history m f.key f.cur.node ∧
      ∀ a, f.cur.node = some a → m.keyOf a ≠ f.key
  | .casUnlinkRun => LeftAt t history m f.key f.left
  | .readValue =>
    LeftAt t history m f.key f.left ∧ Found t history m f ∧
      t.hasSentinelValue = true
  | .readNextForMark =>
    LeftAt t history m f.key f.left ∧ Found t history m f ∧
      Removable t m f
  | .casMark =>
    LeftAt t history m f.key f.left ∧ Found t history m f ∧
      Removable t m f
  | .casUnlink => LeftAt t history m f.key f.left
  | .saveOldVal => True
  | .saveOldValRetry =>
    LeftAt t history m f.key f.left ∧
      (f.leftNext.marked = false →
        Ahead t history m f.key f.leftNext.node)
  | .freeNodes _ _ => True

section

variable {t : Table} {history : List Moment} {m after : Memory} {f : Frame}
  (hist : HistOk t history m) (evolves : Evolves t m after)
include hist evolves

theorem Found.push (found : Found t history m f) : Found t (moment :: history) after f := by
  intro a isCur
  obtain ⟨visited, isKey⟩ := found a isCur
  exact ⟨visited.push, (evolves.key (hist.known_of_visited visited)).trans isKey⟩

omit hist evolves in
theorem isSentinel_iff (has : t.hasSentinelValue) :
    t.isSentinel value ↔ value = t.sentinelValue := by
  simp [Table.isSentinel, has]

theorem Removable.push (found : Found t history m f) (removable : Removable t m f) :
    Removable t after f := by
  intro a isCur has
  have known := hist.known_of_visited (found a isCur).1
  have pre := (isSentinel_iff has).mpr (removable a isCur has)
  exact (isSentinel_iff has).mp (evolves.sentinel known pre)

theorem Located.push (located : Located t history m f) : Located t (moment :: history) after f := by
  unfold Located at located ⊢
  split at located
  · trivial
  · exact ⟨located.1.push hist evolves, located.2.push hist evolves⟩
  · exact located.push hist evolves
  · exact ⟨located.1.push hist evolves, located.2.push hist evolves⟩
  · obtain ⟨left, ahead, other⟩ := located
    refine ⟨left.push hist evolves, ahead.push hist evolves, fun a isCur => ?_⟩
    rw [isCur] at ahead
    rw [evolves.key (hist.known_of_visited ahead.1)]
    exact other a isCur
  · exact located.push hist evolves
  · exact ⟨located.1.push hist evolves, located.2.1.push hist evolves, located.2.2⟩
  · exact ⟨located.1.push hist evolves, located.2.1.push hist evolves,
      located.2.2.push hist evolves located.2.1⟩
  · exact ⟨located.1.push hist evolves, located.2.1.push hist evolves,
      located.2.2.push hist evolves located.2.1⟩
  · exact located.push hist evolves
  · trivial
  · exact ⟨located.1.push hist evolves, fun plain => (located.2 plain).push hist evolves⟩
  · trivial

end

structure Explained (t : Table) (history : List Moment) (m : Memory) (key : Key)
    (action : HashAction) (out : Outcome) : Prop where
  right : (action = .remove → ∀ oldVal, out ≠ .removed oldVal) → ∃ moment ∈ history,
    SeqStep t key action (toMap t moment.memory) out (toMap t moment.memory)
  live : ∀ a, out = .entry a → t.isSentinel (m.elems a).value = false

/-- A local computation leaves the call at a place it knows or with an answer. -/
def EffectAt (effect : Effect) : Prop :=
  match effect.thread with
  | .running f' => Located t history m f'
  | .returned out => Explained t history m f.key f.action out
  | _ => True

section

variable {t : Table} {history : List Moment} {m : Memory} {f : Frame} {a : Addr}

theorem explain_removed (remove : f.action = .remove) :
    Explained t history m f.key f.action (.removed oldVal) :=
  ⟨fun other => absurd rfl (other remove oldVal), fun _ isEntry => by cases isEntry⟩

theorem explain_null (mem : moment ∈ history)
    (step : SeqStep t f.key f.action (toMap t moment.memory) .null (toMap t moment.memory)) :
    Explained t history m f.key f.action .null :=
  ⟨fun _ => ⟨moment, mem, step⟩, fun _ isEntry => by cases isEntry⟩

theorem explain_find_null (find : f.action = .find) (absent : AbsentIn t history f.key) :
    Explained t history m f.key f.action .null := by
  obtain ⟨moment, mem, absent⟩ := absent
  refine explain_null mem ?_
  rw [find]
  refine .notFound (fun slot present => ?_)
  rw [toMap_of_absent absent] at present
  cases present

theorem explain_remove_null (remove : f.action = .remove) (absent : AbsentIn t history f.key) :
    Explained t history m f.key f.action .null := by
  obtain ⟨moment, mem, absent⟩ := absent
  refine explain_null mem ?_
  rw [remove]
  refine .kept (fun slot present => ?_)
  rw [toMap_of_absent absent] at present
  cases present

/-- What the map says about an unmarked node with the key that was in the bucket. -/
theorem HistOk.toMap_of_visited (hist : HistOk t history m)
    (visited : Visited history (t.bucketOf f.key) a)
    (isKey : m.keyOf a = f.key) (unmarked : ¬ m.Marked a) :
    ∃ moment ∈ history, toMap t moment.memory f.key = some ⟨a, (m.elems a).value⟩ := by
  have reach := hist.reach_of_visited visited unmarked
  have holds : Holds t m f.key a := ⟨reach, isKey, unmarked⟩
  have present := toMap_of_holds hist.present_wf hist.present_ordered holds
  obtain ⟨moment, mem, rfl⟩ := hist.present
  exact ⟨moment, mem, present⟩

structure Looked (t : Table) (m : Memory) (f : Frame) : Prop where
  isNext : ∀ a, f.cur.node = some a → f.next = m.read (.node a)
  checks : ∀ a, f.cur.node = some a → m.keyOf a = f.key →
    ¬ m.Marked a →
    t.passesSentinel m a = !t.isSentinel (m.elems a).value

theorem Looked.marked_iff (looked : Looked t m f)
    (isCur : f.cur.node = some a) : m.Marked a ↔ f.next.marked := by
  rw [looked.isNext a isCur]
  exact Iff.rfl

theorem EffectAt.of_frame (known : EffectAt t history m f' effect) (key : f'.key = f.key)
    (action : f'.action = f.action) : EffectAt t history m f effect := by
  unfold EffectAt at known ⊢
  rwa [key, action] at known

variable (hist : HistOk t history m)
  (left : LeftAt t history m f.key f.left)
  (ahead : Ahead t history m f.key f.cur.node)
  (reached : ∀ a, f.cur.node = some a → f.key ≤ m.keyOf a)
include ahead

include hist reached in
theorem findCase_at (find : f.action = .find) (looked : Looked t m f) :
    EffectAt t history m f (findCase t m f) := by
  cases isCur : f.cur.node with
  | none =>
    rw [isCur] at ahead
    simp only [findCase, isCur]
    exact explain_find_null find ahead
  | some a =>
    rw [isCur] at ahead
    simp only [findCase, isCur]
    split
    next found =>
      obtain ⟨isKey, plain, passes⟩ := found
      have unmarked : ¬ m.Marked a := by simp [looked.marked_iff isCur, plain]
      rw [looked.checks a isCur isKey unmarked] at passes
      obtain ⟨moment, mem, present⟩ := hist.toMap_of_visited ahead.1 isKey unmarked
      have live : t.isSentinel (m.elems a).value = false := by simpa using passes
      refine ⟨fun _ => ⟨moment, mem, ?_⟩, fun _ isEntry => by cases isEntry; exact live⟩
      rw [find]
      exact .found present live
    next notFound =>
      by_cases isKey : m.keyOf a = f.key
      · by_cases marked : m.Marked a
        · exact explain_find_null find (hist.absentIn_of_marked ahead.1 isKey marked)
        · obtain ⟨moment, mem, present⟩ := hist.toMap_of_visited ahead.1 isKey marked
          refine explain_null mem ?_
          rw [find]
          refine .notFound (fun slot present' => ?_)
          cases present.symm.trans present'
          have plain : f.next.marked = false := by simpa [looked.marked_iff isCur] using marked
          have fails : ¬ t.passesSentinel m a := fun passes => notFound ⟨isKey, plain, passes⟩
          rw [looked.checks a isCur isKey marked] at fails
          simpa using fails
      · have above : f.key < m.keyOf a := Nat.lt_of_le_of_ne (reached a isCur) (Ne.symm isKey)
        exact explain_find_null find (ahead.2 above)

include hist left in
theorem enterLoop_at (enter : f.action = .enter) (looked : Looked t m f) :
    EffectAt t history m f (enterLoop t m f) := by
  cases isCur : f.cur.node with
  | none =>
    simp only [enterLoop, isCur]
    refine ⟨left, ahead, fun a isAddr => ?_⟩
    cases isCur.symm.trans isAddr
  | some a =>
    simp only [enterLoop, isCur]
    split
    next isKey =>
      split
      next found =>
        obtain ⟨plain, passes⟩ := found
        rw [isCur] at ahead
        have unmarked : ¬ m.Marked a := by simp [looked.marked_iff isCur, plain]
        rw [looked.checks a isCur isKey unmarked] at passes
        obtain ⟨moment, mem, present⟩ := hist.toMap_of_visited ahead.1 isKey unmarked
        have live : t.isSentinel (m.elems a).value = false := by simpa using passes
        refine ⟨fun _ => ⟨moment, mem, ?_⟩, fun _ isEntry => by cases isEntry; exact live⟩
        rw [enter]
        exact .existing present live
      · exact left
    next otherKey =>
      refine ⟨left, ahead, fun a' isAddr => ?_⟩
      cases isCur.symm.trans isAddr
      exact otherKey

include left reached in
theorem removeAdjacent_at (remove : f.action = .remove) (noRun : f.removedBegin = Ptr.null) :
    EffectAt t history m f (removeAdjacent t m f) := by
  unfold removeAdjacent
  simp only [freeNodes_returned noRun]
  split
  · exact explain_removed remove
  · cases isCur : f.cur.node with
    | none =>
      rw [isCur] at ahead
      exact explain_remove_null remove ahead
    | some a =>
      rw [isCur] at ahead
      dsimp only
      split
      next isKey =>
        have found : Found t history m f := by
          intro a' isAddr
          cases isCur.symm.trans isAddr
          exact ⟨ahead.1, isKey⟩
        split
        · next has => exact ⟨left, found, has⟩
        · next noSentinel => exact ⟨left, found, fun _ _ has => absurd has noSentinel⟩
      next otherKey =>
        have above : f.key < m.keyOf a := Nat.lt_of_le_of_ne (reached a isCur) (Ne.symm otherKey)
        exact explain_remove_null remove (ahead.2 above)

include hist

include left reached in
theorem exitLoop_at (looked : f.action ≠ .remove → Looked t m f) :
    EffectAt t history m f (exitLoop t m f) := by
  unfold exitLoop
  cases haction : f.action with
  | find => exact findCase_at hist ahead reached haction (looked (by simp [haction]))
  | enter => exact enterLoop_at hist left ahead haction (looked (by simp [haction]))
  | remove =>
    simp only [removeCase]
    split
    · exact .of_frame (removeAdjacent_at left ahead reached haction rfl) rfl rfl
    · exact left

include left in
theorem fastpath_at : EffectAt t history m f (fastpath t m f) := by
  unfold fastpath
  cases isCur : f.cur.node with
  | none =>
    refine exitLoop_at hist left ahead (fun a isAddr => ?_) (fun _ => ⟨?_, ?_⟩)
    · cases isCur.symm.trans isAddr
    · intro a isAddr
      cases isCur.symm.trans isAddr
    · intro a isAddr
      cases isCur.symm.trans isAddr
  | some a => exact ⟨left, ahead⟩

omit ahead

theorem HistOk.ahead_pass (ahead : Ahead t history m key (some a))
    (goesOn : m.keyOf a < key ∨ m.Marked a) :
    Ahead t history m key (m.linkOf (.node a)) := by
  by_cases less : m.keyOf a < key
  · exact hist.ahead_of_read (.inr ⟨a, rfl, ahead.1, less⟩)
  · have marked := goesOn.resolve_left less
    have absent : AbsentIn t history key := by
      rcases Nat.lt_or_eq_of_le (Nat.le_of_not_lt less) with above | isKey
      · exact ahead.2 above
      · exact hist.absentIn_of_marked ahead.1 isKey.symm marked
    cases linked : m.linkOf (.node a) with
    | none => exact absent
    | some next => exact ⟨hist.visited_next ahead.1 linked, fun _ => absent⟩

include left

theorem visit_at (isCur : f.cur = .ofNode a) (ahead : Ahead t history m f.key (some a))
    (checks : f.action ≠ .remove → m.keyOf a = f.key → ¬ m.Marked a →
      t.passesSentinel m a = !t.isSentinel (m.elems a).value) :
    EffectAt t history m f (visit t m f a (m.read (.node a))) := by
  have curNode : f.cur.node = some a := by rw [isCur]; rfl
  unfold visit
  split
  next stops =>
    have atAddr : Ahead t history m f.key f.cur.node := by rwa [curNode]
    refine .of_frame (exitLoop_at hist left atAddr ?_ (fun other => ⟨?_, ?_⟩)) rfl rfl
    · intro a' isAddr
      cases curNode.symm.trans isAddr
      exact stops.1
    · intro a' isAddr
      cases curNode.symm.trans isAddr
      rfl
    · intro a' isAddr isKey unmarked
      cases curNode.symm.trans isAddr
      exact checks other isKey unmarked
  next goesOn =>
    cases hmarked : (m.read (.node a)).marked with
    | true =>
      have passed := hist.ahead_pass ahead (.inr hmarked)
      simp only [loopTop, hmarked, if_true]
      exact .of_frame (fastpath_at hist left passed) rfl rfl
    | false =>
      have less : m.keyOf a < f.key := by
        refine Nat.lt_of_not_le (fun reached => goesOn ⟨reached, fun _ => hmarked⟩)
      have newLeft : LeftAt t history m f.key (.node a) := .inr ⟨a, rfl, ahead.1, less⟩
      simp only [loopTop, hmarked, Bool.false_eq_true, if_false]
      exact .of_frame (fastpath_at hist newLeft (hist.ahead_of_read newLeft)) rfl rfl

theorem restart_at (ahead : f.leftNext.marked = false → Ahead t history m f.key f.leftNext.node) :
    EffectAt t history m f (restart t m f) := by
  cases hmarked : f.leftNext.marked with
  | true =>
    simp only [restart, hmarked, if_true]
    trivial
  | false =>
    simp only [restart, hmarked, Bool.false_eq_true, if_false]
    exact .of_frame (fastpath_at hist left (ahead hmarked)) rfl rfl

end

section

variable {t : Table} {history : List Moment} {m : Memory} {f : Frame}

def Reads (pc : Pc) : Prop :=
  pc = .readBucket ∨ pc = .readNext ∨ pc = .reread ∨ pc = .rereadNext ∨ pc = .readValue ∨
    pc = .readNextForMark ∨ pc = .saveOldValRetry

theorem stepFrame_reads (reads : Reads f.pc) : (stepFrame t m f).1 = m := by
  rcases reads with hpc | hpc | hpc | hpc | hpc | hpc | hpc
  · simp only [stepFrame, hpc]
  · simp only [stepFrame, hpc]
    split <;> rfl
  · simp only [stepFrame, hpc]
    split <;> rfl
  · simp only [stepFrame, hpc]
    split <;> rfl
  · simp only [stepFrame, hpc]
    split
    · rfl
    · split <;> rfl
  · simp only [stepFrame, hpc]
    split
    · rfl
    · split <;> rfl
  · simp only [stepFrame, hpc]
    split <;> rfl

/-- An access that only reads leaves the call at a place it knows or with an answer. -/
theorem read_at (hist : HistOk t history m) (ok : FrameOk t m f)
    (located : Located t history m f) (checks : ChecksValue t m f) (reads : Reads f.pc) :
    EffectAt t history m f (stepFrame t m f).2 := by
  unfold FrameOk at ok
  unfold Located at located
  rcases reads with hpc | hpc | hpc | hpc | hpc | hpc | hpc
  · have left : LeftAt t history m f.key (.head (t.bucketOf f.key)) := .inl rfl
    have plain := hist.present_wf.headUnmarked (t.bucketOf f.key)
    simp only [stepFrame, hpc, loopTop, Memory.read, plain, Bool.false_eq_true, if_false]
    exact fastpath_at hist left (hist.ahead_of_read left)
  · rw [hpc] at ok located
    obtain ⟨-, a, isCur⟩ := ok
    obtain ⟨left, ahead⟩ := located
    have curNode : f.cur.node = some a := by rw [isCur]; rfl
    rw [curNode] at ahead
    simp only [stepFrame, hpc, rawptr_cur isCur]
    exact visit_at hist left isCur ahead
      (fun other isKey unmarked => checks (.inl hpc) other a curNode isKey unmarked)
  · rw [hpc] at located
    simp only [stepFrame, hpc]
    split
    · trivial
    · exact ⟨located, hist.ahead_of_read located⟩
  · rw [hpc] at ok located
    obtain ⟨enter, -, -, a, isCur⟩ := ok
    obtain ⟨left, ahead⟩ := located
    have curNode : f.cur.node = some a := by rw [isCur]; rfl
    simp only [stepFrame, hpc, rawptr_cur isCur]
    refine enterLoop_at hist left ahead enter ⟨fun a' isAddr => ?_, ?_⟩
    · cases curNode.symm.trans isAddr
      rfl
    · exact checks (.inr hpc) (by simp [enter])
  · rw [hpc] at ok located
    obtain ⟨a, isCur⟩ := ok.atNode
    obtain ⟨left, found, has⟩ := located
    have curNode : f.cur.node = some a := by rw [isCur]; rfl
    simp only [stepFrame, hpc, rawptr_cur isCur, freeNodes_returned ok.noRun]
    split
    next isSentinel =>
      refine ⟨left, found, fun a' isAddr _ => ?_⟩
      cases curNode.symm.trans isAddr
      exact isSentinel
    next live =>
      obtain ⟨visited, isKey⟩ := found a curNode
      by_cases marked : m.Marked a
      · exact explain_remove_null ok.action (hist.absentIn_of_marked visited isKey marked)
      · obtain ⟨moment, mem, present⟩ := hist.toMap_of_visited visited isKey marked
        refine explain_null mem ?_
        rw [ok.action]
        refine .kept (fun slot present' => ?_)
        cases present.symm.trans present'
        exact ⟨has, live⟩
  · rw [hpc] at ok located
    obtain ⟨a, isCur⟩ := ok.atNode
    simp only [stepFrame, hpc, rawptr_cur isCur]
    split
    · exact located.1
    · exact located
  · rw [hpc] at ok located
    obtain ⟨-, -, ⟨a, isCur⟩, -⟩ := ok
    simp only [stepFrame, hpc, rawptr_cur isCur]
    exact restart_at hist located.1 located.2

/-- An access that may change memory, other than a successful insertion. -/
theorem swap_at (hist : HistOk t history m) (hist' : HistOk t (moment :: history) after)
    (evolves : Evolves t m after) (ok : FrameOk t m f) (located : Located t history m f)
    (hidden : f.action = .enter → Hidden m f.newNode) (stays : RunStays m f) (swaps : ¬ Reads f.pc)
    (lost : f.pc = .casInsert → m.read f.left ≠ f.leftNext)
    (res : stepFrame t m f = (after, effect)) :
    EffectAt t (moment :: history) after f effect := by
  unfold FrameOk at ok
  unfold Located at located
  cases hpc : f.pc with
  | casInsert =>
    rw [hpc] at ok located
    have sameLeft : (m.write (.node f.newNode) f.cur).read f.left = m.read f.left :=
      Memory.read_write_of_ne (ok.2.left.ne_hidden (hidden ok.1))
    have fails : ¬ (m.write (.node f.newNode) f.cur).read f.left = f.leftNext := by
      rw [sameLeft]
      exact lost hpc
    simp only [stepFrame, hpc, fails, if_false] at res
    cases res
    have left : LeftAt t (moment :: history) _ f.key f.left := located.1.push hist evolves
    exact restart_at hist' left (fun _ => hist'.ahead_of_read left)
  | casUnlinkRun =>
    rw [hpc] at located
    simp only [stepFrame, hpc, stays hpc, if_false] at res
    cases res
    have left : LeftAt t (moment :: history) _ f.key f.left := located.push hist evolves
    exact restart_at hist' left (fun _ => hist'.ahead_of_read left)
  | casMark =>
    rw [hpc] at ok located
    obtain ⟨a, isCur⟩ := ok.1.atNode
    have found : Found t (moment :: history) _ f := located.2.1.push hist evolves
    have left : LeftAt t (moment :: history) _ f.key f.left := located.1.push hist evolves
    simp only [stepFrame, hpc, rawptr_cur isCur] at res
    split at res
    · cases res
      exact left
    · split at res
      · cases res
        exact left
      · cases res
        exact ⟨left, found, located.2.2.push hist evolves located.2.1⟩
  | casUnlink =>
    rw [hpc] at ok located
    have left : LeftAt t (moment :: history) _ f.key f.left := located.push hist evolves
    simp only [stepFrame, hpc, freeNodes_returned ok.1.noRun] at res
    split at res
    · cases res
      trivial
    · rw [freeNodes_returned] at res
      · cases res
        exact ⟨left, fun _ => hist'.ahead_of_read left⟩
      · exact ok.1.noRun
  | saveOldVal =>
    rw [hpc] at ok
    obtain ⟨remove, a, isCur⟩ := ok
    simp only [stepFrame, hpc, rawptr_cur isCur] at res
    cases res
    exact explain_removed remove
  | freeNodes begin after =>
    rw [hpc] at ok
    exact ok.elim
  | _ => simp [Reads, hpc] at swaps

end

end PgAqp.Hash
