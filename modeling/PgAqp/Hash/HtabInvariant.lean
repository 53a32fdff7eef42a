import PgAqp.Hash.HtabFrame

/-!
# The invariant of the lock-free table

One shared access of a call changes memory in one of a few ways, listed by
`Access`.  Two situations are left out, because the code does not survive them: a waiting
insertion that finds nothing behind its left link, and a removal that wins the
swap over a run of marked nodes and then has to free that run.
-/

namespace PgAqp.Hash

open Library List Option Memory

/-- A waiting insertion does not find the end of the list behind its left link. -/
def WaitFindsNode (m : Memory) (f : Frame) : Prop :=
  f.pc = .reread → m.read f.left ≠ Ptr.null
  deriving Decidable

/-- A removal does not win the swap over a run of marked nodes. -/
def RunStays (m : Memory) (f : Frame) : Prop :=
  f.pc = .casUnlinkRun → m.read f.left ≠ f.leftNext
  deriving Decidable

def Survives (m : Memory) (f : Frame) : Prop :=
  WaitFindsNode m f ∧ RunStays m f
  deriving Decidable

/-- A condition on the call that makes the next shared access. -/
def Guarded (condition : Memory → Frame → Prop) (s : State) : Label → Prop
  | .step tid =>
    match s.threads tid with
    | .running f => condition s.memory f
    | _ => True
  | _ => True

instance (condition : Memory → Frame → Prop) [∀ m f, Decidable (condition m f)]
    (s : State) : ∀ label, Decidable (Guarded condition s label)
  | .step tid =>
    match hthread : s.threads tid with
    | .running f =>
      decidable_of_iff (condition s.memory f) (by simp [Guarded, hthread])
    | .idle => isTrue (by simp [Guarded, hthread])
    | .returned _ => isTrue (by simp [Guarded, hthread])
    | .crashed => isTrue (by simp [Guarded, hthread])
    | .detached => isTrue (by simp [Guarded, hthread])
  | .invoke _ _ _ => isTrue trivial
  | .store _ _ => isTrue trivial
  | .destroy _ => isTrue trivial

theorem Guarded.mono (implies : ∀ m f, condition m f → weaker m f)
    (guarded : Guarded condition s label) :
    Guarded weaker s label := by
  unfold Guarded at guarded ⊢
  split
  · split
    next hthread =>
      simp only [hthread] at guarded
      exact implies _ _ guarded
    · trivial
  · trivial

inductive Access (t : Table) (m : Memory) (f : Frame) : Memory → Effect → Prop where
  | quiet {effect : Effect} (ok : EffectOk t m f effect) :
      Access t m f m effect
  | prepared {effect : Effect} (enter : f.action = .enter)
      (search : Search t m f)
      (ok : EffectOk t (m.write (.node f.newNode) f.cur) f effect) :
      Access t m f (m.write (.node f.newNode) f.cur) effect
  | inserted (atSwap : f.pc = .casInsert) (enter : f.action = .enter)
      (search : Search t m f) (swapped : m.read f.left = f.leftNext) :
      Access t m f
        ((m.write (.node f.newNode) f.cur).write f.left (.ofNode f.newNode))
        (.returned (.entry f.newNode))
  | marked {a : Addr} {effect : Effect} (atMark : f.pc = .casMark)
      (removing : Removing t m f)
      (isCur : f.cur = .ofNode a) (unmarked : ¬ m.Marked a)
      (ok : EffectOk t
        (m.write (.node a) (m.read (.node a)).mark) f effect) :
      Access t m f
        (m.write (.node a) (m.read (.node a)).mark) effect
  | unlinked (removing : Removing t m f) (unlinking : Unlinking m f)
      (swapped : m.read f.left = f.leftNext) :
      Access t m f (m.write f.left f.next)
        (.running { f with pc := .saveOldVal })
  | freed {a : Addr} (atSave : f.pc = .saveOldVal) (remove : f.action = .remove)
      (isCur : f.cur = .ofNode a) :
      Access t m f (m.free f.cur)
        (.returned (.removed (m.elems a).value))

abbrev Accesses (t : Table) (m : Memory) (f : Frame) : Prop :=
  Access t m f (stepFrame t m f).1 (stepFrame t m f).2

section

variable {t : Table} {m : Memory} {f : Frame}

theorem rawptr_cur (isCur : f.cur = .ofNode a) : rawptr f.cur = some a := by
  rw [isCur]
  rfl

theorem LeftOk.ne_hidden (left : LeftOk t m key link) (hidden : Hidden m a) : link ≠ .node a := by
  rcases left with rfl | ⟨node, rfl, known⟩
  · simp
  · simpa using hidden.ne_of_known known

variable (wf : MemWf t m) (removing : Removing t m f)

include removing in
theorem afterMark_ok {next : Ptr} (isCur : f.cur = .ofNode a) (marked : m.Marked a)
    (isNext : next.getUnmarked = (m.read (.node a)).getUnmarked) :
    EffectOk t m f (afterMark f next) :=
  .running ⟨removing.congr rfl rfl rfl rfl rfl, a, isCur, marked, isNext⟩ rfl (by simp)

include wf

theorem access_readBucket (atPc : f.pc = .readBucket) : Accesses t m f := by
  simp only [Accesses, stepFrame, atPc]
  exact .quiet (loopTop_read_ok wf (.inl rfl) rfl (wf.headUnmarked _))

theorem access_reread (atPc : f.pc = .reread) (enter : f.action = .enter)
    (left : LeftOk t m f.key f.left) (finds : WaitFindsNode m f) :
    Accesses t m f := by
  simp only [Accesses, stepFrame, atPc]
  cases hread : m.read f.left with
  | mk node marked =>
    cases marked with
    | true => exact .quiet (.running trivial rfl (by simp))
    | false =>
      cases node with
      | none => exact absurd hread (finds atPc)
      | some a =>
        have linked : m.linkOf f.left = some a := congrArg Ptr.node hread
        have known : ∀ node, some a = some node → Known t m (t.bucketOf f.key) node := by
          rintro _ ⟨⟩
          exact left.known_next wf linked
        exact .quiet (.running ⟨enter, .start left rfl known, rfl, a, rfl⟩ rfl (by simp))

theorem access_casInsert (atPc : f.pc = .casInsert) (enter : f.action = .enter)
    (search : Search t m f) (hidden : Hidden m f.newNode) :
    Accesses t m f := by
  have agrees : AgreesOff m (m.write (.node f.newNode) f.cur) f.newNode := .write search.curUnmarked
  have evolves : Evolves t m _ := agrees.evolves wf hidden
  have sameLeft : (m.write (.node f.newNode) f.cur).read f.left = m.read f.left :=
    read_write_of_ne (search.left.ne_hidden hidden)
  simp only [Accesses, stepFrame, atPc]
  split
  · next swapped => exact .inserted atPc enter search (sameLeft.symm.trans swapped)
  · refine .prepared enter search ((restart_ok ?_ ?_).congr rfl)
    · exact search.left.stable evolves wf
    · intro plain a isNext
      exact (search.left.stable evolves wf).known_next (agrees.wf wf hidden) isNext

theorem access_casUnlinkRun (atPc : f.pc = .casUnlinkRun)
    (search : Search t m f) (stays : RunStays m f) :
    Accesses t m f := by
  simp only [Accesses, stepFrame, atPc, stays atPc, if_false]
  refine .quiet (EffectOk.congr (restart_ok ?_ ?_) rfl)
  · exact search.left
  · exact fun _ _ isNext => search.left.known_next wf isNext

include removing

omit wf in
theorem access_readValue (atPc : f.pc = .readValue) : Accesses t m f := by
  obtain ⟨a, isCur⟩ := removing.atNode
  simp only [Accesses, stepFrame, atPc, rawptr_cur isCur]
  split
  · exact .quiet (.running (removing.congr rfl rfl rfl rfl rfl) rfl (by simp))
  · rw [freeNodes_returned removing.noRun]
    exact .quiet (.returned (by simp [removing.action]))

omit wf in
theorem access_readNextForMark (atPc : f.pc = .readNextForMark) : Accesses t m f := by
  obtain ⟨a, isCur⟩ := removing.atNode
  simp only [Accesses, stepFrame, atPc, rawptr_cur isCur]
  split
  · next marked => exact .quiet (afterMark_ok removing isCur marked rfl)
  next unmarked =>
    exact .quiet (.running ⟨removing.congr rfl rfl rfl rfl rfl, by simpa using unmarked⟩ rfl
      (by simp))

theorem access_casMark (atPc : f.pc = .casMark) (plain : f.next.marked = false) :
    Accesses t m f := by
  obtain ⟨a, isCur⟩ := removing.atNode
  simp only [Accesses, stepFrame, atPc, rawptr_cur isCur]
  split
  next same =>
    have unmarked : ¬ m.Marked a := by
      unfold Memory.Marked
      rw [same, plain]
      simp
    rw [← same]
    refine .marked atPc removing isCur unmarked (afterMark_ok ?_ isCur ?_ ?_)
    · exact removing.stable (Evolves.mark unmarked) wf
    · exact (marked_mark unmarked).mpr (.inr rfl)
    · simp [Ptr.mark, Ptr.getUnmarked]
  · split
    · next marked => exact .quiet (afterMark_ok removing isCur marked rfl)
    next unmarked =>
      exact .quiet (.running ⟨removing.congr rfl rfl rfl rfl rfl, by simpa using unmarked⟩ rfl
        (by simp))

theorem access_casUnlink (atPc : f.pc = .casUnlink) (unlinking : Unlinking m f) :
    Accesses t m f := by
  simp only [Accesses, stepFrame, atPc]
  split
  next swapped =>
    rw [freeNodes_returned removing.noRun]
    exact .unlinked removing unlinking swapped
  · rw [freeNodes_returned]
    · exact .quiet (.running ⟨removing.action, removing.search.left, removing.atNode,
        fun _ _ isNext => removing.search.left.known_next wf isNext⟩ rfl (by simp))
    · exact removing.noRun

omit removing in
theorem stepFrame_access (ok : FrameOk t m f) (hidden : f.action = .enter → Hidden m f.newNode)
    (survives : Survives m f) :
    Accesses t m f := by
  unfold FrameOk at ok
  cases hpc : f.pc with
  | readBucket => exact access_readBucket wf hpc
  | readNext =>
    rw [hpc] at ok
    obtain ⟨search, a, isCur⟩ := ok
    simp only [Accesses, stepFrame, hpc, rawptr_cur isCur]
    exact .quiet (visit_ok search wf isCur)
  | reread =>
    rw [hpc] at ok
    exact access_reread wf hpc ok.1 ok.2 survives.1
  | rereadNext =>
    rw [hpc] at ok
    obtain ⟨enter, search, -, a, isCur⟩ := ok
    simp only [Accesses, stepFrame, hpc, rawptr_cur isCur]
    refine .quiet (EffectOk.congr (enterLoop_ok ?_ enter) rfl)
    exact search
  | casInsert =>
    rw [hpc] at ok
    exact access_casInsert wf hpc ok.1 ok.2 (hidden ok.1)
  | casUnlinkRun =>
    rw [hpc] at ok
    exact access_casUnlinkRun wf hpc ok.2 survives.2
  | readValue =>
    rw [hpc] at ok
    exact access_readValue ok hpc
  | readNextForMark =>
    rw [hpc] at ok
    exact access_readNextForMark ok hpc
  | casMark =>
    rw [hpc] at ok
    exact access_casMark wf ok.1 hpc ok.2
  | casUnlink =>
    rw [hpc] at ok
    exact access_casUnlink wf ok.1 hpc ok.2
  | saveOldVal =>
    rw [hpc] at ok
    obtain ⟨remove, a, isCur⟩ := ok
    simp only [Accesses, stepFrame, hpc, rawptr_cur isCur]
    exact .freed hpc remove isCur
  | saveOldValRetry =>
    rw [hpc] at ok
    obtain ⟨remove, left, ⟨a, isCur⟩, nextKnown⟩ := ok
    simp only [Accesses, stepFrame, hpc, rawptr_cur isCur]
    refine .quiet (EffectOk.congr (restart_ok ?_ ?_) rfl)
    · exact left
    · exact nextKnown
  | freeNodes begin after =>
    rw [hpc] at ok
    exact ok.elim

end

section

variable {t : Table} {m : Memory} {f : Frame} {left : Link}

theorem LeftOk.position (left : LeftOk t m key link)
    (wf : MemWf t m) (plain : (m.read link).marked = false) :
    ∃ front back, Position t m (t.bucketOf key) link front back := by
  rcases left with rfl | ⟨a, rfl, known⟩
  · obtain ⟨back, pos⟩ := Position.ofHead wf (t.bucketOf key)
    exact ⟨[], back, pos⟩
  · have unmarked : ¬ m.Marked a := by simp [Memory.Marked, plain]
    obtain ⟨init, back, pos⟩ := Position.ofNode wf (MemWf.reach_of_known known unmarked)
    exact ⟨init ++ [a], back, pos⟩

/-- When the left link is still as it was read, the passed run lies behind it. -/
theorem SearchAt.position {run : List Addr} (search : SearchAt t m key left leftNext cur)
    (wf : MemWf t m) (walk : Segment m.linkOf leftNext.node run cur.node)
    (swapped : m.read left = leftNext) :
    ∃ front post, Position t m (t.bucketOf key) left front (run ++ post) ∧
      Segment m.linkOf cur.node post none := by
  have plain : (m.read left).marked = false := by
    rw [swapped]
    exact search.leftNextUnmarked
  obtain ⟨front, back, pos⟩ := search.left.position wf plain
  have tail := pos.tail
  rw [linkOf, swapped] at tail
  obtain ⟨post, rfl, behind⟩ := Segment.cancel walk tail
  exact ⟨front, post, pos, behind⟩

theorem SearchAt.insertSplice {newNode : Addr} (search : SearchAt t m key left leftNext cur)
    (run : List Addr) (wf : MemWf t m) (hidden : Hidden m newNode)
    (isKey : m.keyOf newNode = key) (walk : Segment m.linkOf leftNext.node run cur.node)
    (marked : ∀ a ∈ run, m.Marked a) (swapped : m.read left = leftNext) :
    ∃ front post, Splice t (m.write (.node newNode) cur) (t.bucketOf key) left
      (.ofNode newNode) front run post [newNode] := by
  have agrees : AgreesOff m (m.write (.node newNode) cur) newNode := .write search.curUnmarked
  have evolves : Evolves t m _ := agrees.evolves wf hidden
  have swapped' : (m.write (.node newNode) cur).read left = leftNext := by
    rw [read_write_of_ne (search.left.ne_hidden hidden)]
    exact swapped
  obtain ⟨front, post, pos, behind⟩ := (search.stable evolves wf).position
    (agrees.wf wf hidden) (Segment.stable evolves marked walk) swapped'
  have hidden' := (agrees.hidden_iff wf hidden).mpr hidden
  refine ⟨front, post, pos, ?_, fun a mem => evolves.marked (marked a mem), rfl,
    ?_, ?_, by simp, ?_⟩
  · rw [swapped']
    exact search.leftNextUnmarked
  · refine ⟨rfl, ?_⟩
    rw [linkOf, read_write_self]
    exact behind
  · intro a mem
    rw [mem_singleton.mp mem]
    exact hidden'.unlisted
  · intro a mem
    rw [mem_singleton.mp mem, keyOf_write, isKey]

theorem Removing.unlinkSplice (removing : Removing t m f) (wf : MemWf t m)
    (unlinking : Unlinking m f) (swapped : m.read f.left = f.leftNext) :
    ∃ front a post, f.cur = .ofNode a ∧
      Splice t m (t.bucketOf f.key) f.left f.next front [a] post [] := by
  have plain : (m.read f.left).marked = false := by
    rw [swapped]
    exact removing.search.leftNextUnmarked
  obtain ⟨a, isCur, marked, isNext⟩ := unlinking
  obtain ⟨front, back, pos⟩ := removing.search.left.position wf plain
  have linked : m.linkOf f.left = some a := by
    rw [linkOf, swapped, removing.adjacent, isCur]
    rfl
  have tail := pos.tail
  rw [linked] at tail
  cases back with
  | nil => cases tail
  | cons first post =>
    obtain ⟨same, behind⟩ := Segment.cons_iff.mp tail
    cases some.inj same
    refine ⟨front, a, post, isCur, pos, plain, by simpa using marked, ?_, ?_,
      by simp, by simp, by simp⟩
    · rw [isNext]
      rfl
    · rw [isNext]
      exact behind

end

structure Change (t : Table) (pre after : Memory) (f : Frame) (effect : Effect) :
    Prop where
  wf : MemWf t after
  evolves : Evolves t pre after
  key : ∀ a, after.keyOf a = pre.keyOf a
  fresh : after.fresh = pre.fresh
  reach : ∀ {bucket a}, after.Reach bucket a → pre.Reach bucket a ∨
    a = f.newNode ∧ f.action = .enter ∧ effect = .returned (.entry f.newNode)
  marked : ∀ {a}, after.Marked a → pre.Marked a ∨
    (∃ bucket, pre.Reach bucket a) ∧ f.pc = .casMark ∧ f.cur = .ofNode a

variable {t : Table} {m pre after : Memory} {f : Frame} {effect : Effect}

theorem SameLists.free : SameLists t m (m.free ptr) where
  read link := by cases link <;> rfl
  key _ := rfl
  sentinel _ := id

theorem Access.change (access : Access t pre f after effect) (wf : MemWf t pre)
    (hidden : f.action = .enter → Hidden pre f.newNode)
    (key : f.action = .enter → pre.keyOf f.newNode = f.key) :
    Change t pre after f effect := by
  cases access with
  | quiet ok => exact ⟨wf, Evolves.refl _ _, fun _ => rfl, rfl, .inl, .inl⟩
  | prepared enter search ok =>
    have agrees : AgreesOff pre (pre.write (.node f.newNode) f.cur)
        f.newNode := .write search.curUnmarked
    exact ⟨agrees.wf wf (hidden enter), agrees.evolves wf (hidden enter),
      fun _ => keyOf_write, fresh_write,
      fun reach => .inl ((agrees.reach_iff wf (hidden enter)).mp reach),
      fun marked => .inl ((agrees.marked_iff (hidden enter)).mp marked)⟩
  | inserted atSwap enter search swapped =>
    have agrees : AgreesOff pre (pre.write (.node f.newNode) f.cur)
        f.newNode := .write search.curUnmarked
    have wf' : MemWf t _ := agrees.wf wf (hidden enter)
    have stays : ∀ {a}, (pre.write (.node f.newNode) f.cur).Marked a →
        pre.Marked a := (agrees.marked_iff (hidden enter)).mp
    obtain ⟨run, walk, runMarked⟩ := search.run
    obtain ⟨front, post, splice⟩ :=
      search.insertSplice run wf (hidden enter) (key enter) walk runMarked swapped
    refine ⟨splice.wf wf', (agrees.evolves wf (hidden enter)).trans (splice.evolves wf') wf stays,
      fun _ => by simp, by simp, fun reach => ?_,
      fun marked => .inl (stays (splice.marked_iff.mp marked))⟩
    rcases splice.reach_cases wf' reach with old | new
    · exact .inl ((agrees.reach_iff wf (hidden enter)).mp old)
    · exact .inr ⟨mem_singleton.mp new, enter, rfl⟩
  | @marked a _ atMark removing isCur unmarked ok =>
    have known := removing.search.curKnown a (by rw [isCur]; rfl)
    have reach := MemWf.reach_of_known known unmarked
    refine ⟨wf.mark reach unmarked, Evolves.mark unmarked, fun _ => keyOf_write,
      fresh_write, fun reach' => .inl ((reach_congr linkOf_mark).mp reach'),
      fun marked => ?_⟩
    rcases (marked_mark unmarked).mp marked with old | rfl
    · exact .inl old
    · exact .inr ⟨⟨_, reach⟩, atMark, isCur⟩
  | unlinked removing unlinking swapped =>
    obtain ⟨front, a, post, isCur, splice⟩ := removing.unlinkSplice wf unlinking swapped
    refine ⟨splice.wf wf, splice.evolves wf, fun _ => keyOf_write, fresh_write,
      fun reach => ?_, fun marked => .inl (splice.marked_iff.mp marked)⟩
    exact (splice.reach_cases wf reach).imp_right (fun mem => by cases mem)
  | freed atSave remove isCur =>
    have same : SameLists t pre (pre.free f.cur) := .free
    exact ⟨same.wf wf, same.evolves, fun _ => rfl, rfl,
      fun reach => .inl ((reach_congr same.linkOf).mp reach),
      fun marked => .inl (same.marked_iff.mp marked)⟩

namespace Change

variable {t : Table} {pre after : Memory} {f : Frame} {effect : Effect}

theorem hidden (change : Change t pre after f effect) (hidden : Hidden pre a)
    (other : a = f.newNode → f.action = .enter → effect ≠ .returned (.entry f.newNode)) :
    Hidden after a where
  unlisted bucket reach := by
    rcases change.reach reach with old | ⟨isNew, enter, returned⟩
    · exact hidden.unlisted bucket old
    · exact other isNew enter returned
  unmarked marked := by
    rcases change.marked marked with old | ⟨⟨bucket, reach⟩, -⟩
    · exact hidden.unmarked old
    · exact hidden.unlisted bucket reach

end Change

theorem Access.leaves (access : Access t pre f after effect) :
    Continues t after f effect ∨ f.action = .enter ∧ effect = .returned (.entry f.newNode) := by
  cases access with
  | quiet ok => exact .inl ok.continues
  | prepared enter search ok => exact .inl ok.continues
  | inserted atSwap enter search swapped => exact .inr ⟨enter, rfl⟩
  | marked atMark removing isCur unmarked ok => exact .inl ok.continues
  | unlinked removing unlinking swapped => exact .inl ⟨⟨removing.action, removing.atNode⟩, rfl, rfl⟩
  | freed atSave remove isCur => exact .inl (by simp [Continues, Effect.returned, remove])

theorem Continues.ne_inserted (ok : Continues t m f effect) (enter : f.action = .enter) :
    effect ≠ .returned (.entry f.newNode) := by
  rintro rfl
  simp [Continues, Effect.returned, enter] at ok

end PgAqp.Hash
