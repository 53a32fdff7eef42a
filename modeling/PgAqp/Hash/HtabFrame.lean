import PgAqp.Hash.HtabMemory

/-!
# What a running call knows

Between two shared accesses a call holds pointers that it read earlier.  The
assertions say, for every program point, what still holds of them, whatever other
backends change.
-/

namespace PgAqp.Hash

open Library

variable (t : Table) (m : Memory) (f : Frame)

/-- The left link is the bucket head or a field of a node of the bucket. -/
def LeftOk (key : Key) (link : Link) : Prop :=
  link = .head (t.bucketOf key) ∨
    ∃ a, link = .node a ∧ Known t m (t.bucketOf key) a

/-- What the search loop maintains about its three pointers. -/
structure SearchAt (t : Table) (m : Memory) (key : Key) (left : Link)
    (leftNext cur : Ptr) : Prop where
  left : LeftOk t m key left
  leftNextUnmarked : leftNext.marked = false
  curUnmarked : cur.marked = false
  run : ∃ nodes, Segment m.linkOf leftNext.node nodes cur.node ∧
    ∀ a ∈ nodes, m.Marked a
  curKnown : ∀ a, cur.node = some a → Known t m (t.bucketOf key) a

/-- The search loop of a call. -/
abbrev Search : Prop :=
  SearchAt t m f.key f.left f.leftNext f.cur

/-- A removal that has found its node behind the left link. -/
structure Removing (t : Table) (m : Memory) (f : Frame) : Prop where
  action : f.action = .remove
  search : Search t m f
  adjacent : f.leftNext = f.cur
  atNode : ∃ a, f.cur = .ofNode a
  noRun : f.removedBegin = Ptr.null

/-- The current node is marked and `next` is the link it was marked with. -/
def Unlinking : Prop :=
  ∃ a, f.cur = .ofNode a ∧ m.Marked a ∧
    f.next = (m.read (.node a)).getUnmarked

def FrameOk : Prop :=
  match f.pc with
  | .readBucket => True
  | .readNext => Search t m f ∧ ∃ a, f.cur = .ofNode a
  | .reread => f.action = .enter ∧ LeftOk t m f.key f.left
  | .rereadNext =>
    f.action = .enter ∧ Search t m f ∧ f.leftNext = f.cur ∧
      ∃ a, f.cur = .ofNode a
  | .casInsert => f.action = .enter ∧ Search t m f
  | .casUnlinkRun => f.action = .remove ∧ Search t m f
  | .readValue => Removing t m f
  | .readNextForMark => Removing t m f
  | .casMark => Removing t m f ∧ f.next.marked = false
  | .casUnlink => Removing t m f ∧ Unlinking m f
  | .saveOldVal => f.action = .remove ∧ ∃ a, f.cur = .ofNode a
  | .saveOldValRetry =>
    f.action = .remove ∧ LeftOk t m f.key f.left ∧
      (∃ a, f.cur = .ofNode a) ∧
      (f.leftNext.marked = false → ∀ a, f.leftNext.node = some a →
        Known t m (t.bucketOf f.key) a)
  | .freeNodes _ _ => False

section

variable {t : Table} {pre after : Memory} {f : Frame} (evolves : Evolves t pre after)
include evolves

theorem LeftOk.stable (wf : MemWf t pre)
    (left : LeftOk t pre key link) : LeftOk t after key link := by
  rcases left with isHead | ⟨a, isNode, known⟩
  · exact .inl isHead
  · exact .inr ⟨a, isNode, evolves.known wf known⟩

theorem Segment.stable (marked : ∀ a ∈ nodes, pre.Marked a)
    (walk : Segment pre.linkOf start nodes finish) :
    Segment after.linkOf start nodes finish := by
  refine Segment.congr (fun node mem => ?_) walk
  exact congrArg Ptr.node (evolves.frozen (marked node mem))

theorem SearchAt.stable (wf : MemWf t pre) (search : SearchAt t pre key link leftNext cur) :
    SearchAt t after key link leftNext cur :=
  { search with
    left := search.left.stable evolves wf
    run := by
      obtain ⟨nodes, walk, marked⟩ := search.run
      exact ⟨nodes, Segment.stable evolves marked walk,
        fun a mem => evolves.marked (marked a mem)⟩
    curKnown a isCur := evolves.known wf (search.curKnown a isCur) }

theorem Removing.stable (wf : MemWf t pre) (removing : Removing t pre f) : Removing t after f :=
  { removing with search := removing.search.stable evolves wf }

theorem Unlinking.stable (unlinking : Unlinking pre f) : Unlinking after f := by
  obtain ⟨a, isCur, marked, isNext⟩ := unlinking
  exact ⟨a, isCur, evolves.marked marked, by rw [evolves.frozen marked]; exact isNext⟩

theorem FrameOk.stable (wf : MemWf t pre) (ok : FrameOk t pre f) : FrameOk t after f := by
  unfold FrameOk at ok ⊢
  split at ok
  · trivial
  · exact ⟨ok.1.stable evolves wf, ok.2⟩
  · exact ⟨ok.1, ok.2.stable evolves wf⟩
  · exact ⟨ok.1, ok.2.1.stable evolves wf, ok.2.2⟩
  · exact ⟨ok.1, ok.2.stable evolves wf⟩
  · exact ⟨ok.1, ok.2.stable evolves wf⟩
  · exact ok.stable evolves wf
  · exact ok.stable evolves wf
  · exact ⟨ok.1.stable evolves wf, ok.2⟩
  · exact ⟨ok.1.stable evolves wf, ok.2.stable evolves⟩
  · exact ok
  · exact ⟨ok.1, ok.2.1.stable evolves wf, ok.2.2.1,
      fun plain a isNext => evolves.known wf (ok.2.2.2 plain a isNext)⟩
  · exact ok

end

def Frame.call : HashAction × Key × Addr :=
  (f.action, f.key, f.newNode)

theorem Frame.call_eq {f f' : Frame} (same : f'.call = f.call) :
    f'.action = f.action ∧ f'.key = f.key ∧ f'.newNode = f.newNode := by
  simpa [Frame.call] using same

/-- Where a shared access may leave a call: at a program point whose assertion holds,
or returned, with the unused new node of an insertion put into the cache. -/
def Continues (effect : Effect) : Prop :=
  match effect.thread with
  | .running f' =>
    FrameOk t m f' ∧ f'.call = f.call ∧ effect.cache = none
  | .returned _ => effect.cache = if f.action = .enter then some f.newNode else none
  | _ => False

/-- A local computation continues the call without having unlinked its node. -/
structure EffectOk (t : Table) (m : Memory) (f : Frame) (effect : Effect) :
    Prop where
  continues : Continues t m f effect
  notSaving : ∀ f', effect.thread = .running f' → f'.pc ≠ .saveOldVal

namespace EffectOk

variable {t : Table} {m : Memory} {f : Frame}

theorem running (ok : FrameOk t m f') (same : f'.call = f.call)
    (notSaving : f'.pc ≠ .saveOldVal) : EffectOk t m f (.running f') where
  continues := ⟨ok, same, rfl⟩
  notSaving _ isFrame := Thread.running.inj isFrame ▸ notSaving

theorem returned (other : f.action ≠ .enter) : EffectOk t m f (.returned out) where
  continues := by simp [Continues, Effect.returned, other]
  notSaving := by simp [Effect.returned]

theorem cached (enter : f.action = .enter) : EffectOk t m f ⟨.returned out, some f.newNode⟩ where
  continues := by simp [Continues, enter]
  notSaving := by simp

theorem congr (ok : EffectOk t m f' effect) (same : f'.call = f.call) : EffectOk t m f effect where
  continues := by
    obtain ⟨action, -, newNode⟩ := Frame.call_eq same
    have continues := ok.continues
    unfold Continues at continues ⊢
    rwa [same, action, newNode] at continues
  notSaving := ok.notSaving

end EffectOk

section

variable {t : Table} {m : Memory} {f : Frame}

theorem Removing.congr (removing : Removing t m f) (call : f'.call = f.call)
    (left : f'.left = f.left) (leftNext : f'.leftNext = f.leftNext) (cur : f'.cur = f.cur)
    (removedBegin : f'.removedBegin = f.removedBegin) :
    Removing t m f' := by
  obtain ⟨action, key, -⟩ := Frame.call_eq call
  obtain ⟨remove, search, adjacent, atNode, noRun⟩ := removing
  constructor
  · rwa [action]
  · rwa [Search, key, left, leftNext, cur]
  · rwa [leftNext, cur]
  · rwa [cur]
  · rwa [removedBegin]

variable {a : Addr}

theorem LeftOk.known_next (wf : MemWf t m)
    (left : LeftOk t m key link) (linked : m.linkOf link = some a) :
    Known t m (t.bucketOf key) a := by
  rcases left with rfl | ⟨node, rfl, known⟩
  · exact .inl (wf.reach_head linked)
  · exact wf.known_next known linked

/-- A left link that was read at some time and leads to the current node. -/
theorem SearchAt.start {next : Ptr} (left : LeftOk t m key link) (plain : next.marked = false)
    (known : ∀ a, next.node = some a → Known t m (t.bucketOf key) a) :
    SearchAt t m key link next next where
  left := left
  leftNextUnmarked := plain
  curUnmarked := plain
  run := ⟨[], rfl, by simp⟩
  curKnown := known

theorem SearchAt.ofNode (search : SearchAt t m key link leftNext cur)
    (isCur : cur.node = some a) : cur = .ofNode a := by
  have plain := search.curUnmarked
  cases cur with
  | mk node marked =>
    cases isCur
    cases plain
    rfl

theorem findCase_ok (find : f.action = .find) : EffectOk t m f (findCase t m f) := by
  have other : f.action ≠ .enter := by simp [find]
  unfold findCase
  split
  · exact .returned other
  · split
    · exact .returned other
    · exact .returned other

theorem enterLoop_ok (search : Search t m f) (enter : f.action = .enter) :
    EffectOk t m f (enterLoop t m f) := by
  have atInsert : EffectOk t m f (.running { f with pc := .casInsert }) :=
    .running ⟨enter, search⟩ rfl (by simp)
  unfold enterLoop
  split
  · exact atInsert
  · split
    · split
      · exact .cached enter
      · exact .running ⟨enter, search.left⟩ rfl (by simp)
    · exact atInsert

theorem freeNodes_returned (noRun : f.removedBegin = Ptr.null) :
    freeNodes f after = continueAfter f after := by
  simp [freeNodes, noRun]

theorem removeAdjacent_ok (search : Search t m f) (remove : f.action = .remove)
    (adjacent : f.leftNext = f.cur) (noRun : f.removedBegin = Ptr.null) :
    EffectOk t m f (removeAdjacent t m f) := by
  have other : f.action ≠ .enter := by simp [remove]
  unfold removeAdjacent
  simp only [freeNodes_returned noRun]
  split
  · exact .returned other
  · split
    · exact .returned other
    next a isCur =>
      have removing : Removing t m f := ⟨remove, search, adjacent, ⟨a, search.ofNode isCur⟩, noRun⟩
      split
      · split
        · exact .running (removing.congr rfl rfl rfl rfl rfl) rfl (by simp)
        · exact .running (removing.congr rfl rfl rfl rfl rfl) rfl (by simp)
      · exact .returned other

theorem exitLoop_ok (search : Search t m f) : EffectOk t m f (exitLoop t m f) := by
  unfold exitLoop
  cases haction : f.action with
  | find => exact findCase_ok haction
  | enter => exact enterLoop_ok search haction
  | remove =>
    simp only [removeCase]
    split
    next adjacent =>
      refine EffectOk.congr (removeAdjacent_ok ?_ haction adjacent rfl) rfl
      exact search
    · exact .running ⟨haction, search⟩ rfl (by simp)

theorem fastpath_ok (search : Search t m f) : EffectOk t m f (fastpath t m f) := by
  unfold fastpath
  split
  · exact exitLoop_ok search
  · next a isCur => exact .running ⟨search, a, search.ofNode isCur⟩ rfl (by simp)

theorem loopTop_read_ok (wf : MemWf t m) {next : Ptr} (left : LeftOk t m f.key link)
    (isNext : next.node = m.linkOf link) (plain : next.marked = false) :
    EffectOk t m f (loopTop t m f link next) := by
  have search : SearchAt t m f.key link next next :=
    .start left plain (fun a isCur => left.known_next wf (isNext.symm.trans isCur))
  unfold loopTop
  simp only [plain, Bool.false_eq_true, if_false]
  refine EffectOk.congr (fastpath_ok ?_) rfl
  exact search

theorem SearchAt.pass (search : SearchAt t m key link leftNext cur)
    (wf : MemWf t m) (isCur : cur = .ofNode a) (marked : m.Marked a) :
    SearchAt t m key link leftNext (m.read (.node a)).unmark where
  left := search.left
  leftNextUnmarked := search.leftNextUnmarked
  curUnmarked := by
    unfold Memory.Marked at marked
    simp [Ptr.unmark, marked]
  run := by
    obtain ⟨nodes, walk, allMarked⟩ := search.run
    refine ⟨nodes ++ [a], Segment.append walk ?_, ?_⟩
    · rw [isCur]
      exact ⟨rfl, rfl⟩
    · intro node mem
      rcases List.mem_append.mp mem with inRun | isLast
      · exact allMarked node inRun
      · rwa [List.mem_singleton.mp isLast]
  curKnown next isNext := wf.known_next (search.curKnown a (by rw [isCur]; rfl)) isNext

theorem visit_ok (search : Search t m f) (wf : MemWf t m) (isCur : f.cur = .ofNode a) :
    EffectOk t m f (visit t m f a (m.read (.node a))) := by
  have known := search.curKnown a (by rw [isCur]; rfl)
  unfold visit
  split
  · refine EffectOk.congr (exitLoop_ok ?_) rfl
    exact search
  · cases hmarked : (m.read (.node a)).marked with
    | false => exact loopTop_read_ok wf (.inr ⟨a, rfl, known⟩) rfl hmarked
    | true =>
      unfold loopTop
      simp only [hmarked, if_true]
      refine EffectOk.congr (fastpath_ok ?_) rfl
      exact search.pass wf isCur hmarked

theorem restart_ok (left : LeftOk t m f.key f.left)
    (nextKnown : f.leftNext.marked = false → ∀ a, f.leftNext.node = some a →
      Known t m (t.bucketOf f.key) a) :
    EffectOk t m f (restart t m f) := by
  unfold restart
  cases hmarked : f.leftNext.marked with
  | true => exact .running trivial rfl (by simp)
  | false =>
    have search : SearchAt t m f.key f.left f.leftNext f.leftNext :=
      .start left hmarked (nextKnown hmarked)
    refine EffectOk.congr (fastpath_ok ?_) rfl
    exact search

end

end PgAqp.Hash
