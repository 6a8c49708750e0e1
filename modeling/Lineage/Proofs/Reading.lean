import Lineage.Proofs.Inheritance

/-!
# The order of reads does not matter

A reader of a session asks questions, looks at views, opens walks along bases and advances any of the
walks that it has opened, in any order.  Each of these reads may fill slots, so a later read starts
from another memo than an earlier one would have.

What a reader is told does not depend on that: `Valid.answerAfter_eq` says that after any two
sequences of reads every question is answered alike, and that walks which set out from the same node
and were advanced equally often meet the same node next.  Bases may go round in circles, and may be
found by way of nodes whose own bases are being found.
-/

namespace Lineage

open Lookup

/-- What a reader can ask of a forest.  Declarations are those of a style forest. -/
inductive Question : Type → Type 1 where
  | query {ε : Type} (query : Query) : Question ε
  | declarations (id : NodeId) : Question Style

inductive Answer (ε : Type) where
  | reply (reply : Reply ε)
  | declarations (declarations : List String)
  | opened
  | item (item : Option NodeId)

def Question.answer {ε : Type} : Question ε → Forest ε → Lookup (Answer ε)
  | .query asked, forest => do return .reply (← asked.answer forest)
  | .declarations id, forest => do return .declarations (← Style.visibleDeclarations forest id)

inductive Read (ε : Type) where
  | ask (question : Question ε)
  | view (view : View)
  | openWalk (origin : NodeId)
  /-- Advance the walk that was opened as number `index`, counted from zero. -/
  | advance (index : Nat)

/-- A walk that a reader has opened at `origin` and advanced `advances` times. -/
structure Cursor where
  origin : NodeId
  advances : Nat
  walk : Walk

/-- Where a walk is after it was advanced.  One whose step failed has ended. -/
def Cursor.advanced (cursor : Cursor) : Except Error (Option NodeId × Walk) → Cursor
  | .ok (_, walk) => ⟨cursor.origin, cursor.advances + 1, walk⟩
  | .error _ => ⟨cursor.origin, cursor.advances + 1, ⟨.ended, cursor.walk.seen⟩⟩

/-- What reads have come to: the memo, and the walks opened so far in the order of their opening. -/
structure Reading where
  memo : Memo
  cursors : List Cursor

namespace Reading

variable {ε : Type}

def step (forest : Forest ε) (reading : Reading) : Read ε → Except Error (Answer ε) × Reading
  | .ask question =>
    let (answer, memo) := (question.answer forest).run reading.memo
    (answer, { reading with memo })
  | .view view =>
    let (reply, memo) := (view.answer forest).run reading.memo
    (reply.map .reply, { reading with memo })
  | .openWalk origin =>
    match (forest.baseWalk origin).run reading.memo with
    | (.ok walk, memo) => (.ok .opened, ⟨memo, reading.cursors ++ [⟨origin, 0, walk⟩]⟩)
    | (.error error, memo) => (.error error, { reading with memo })
  | .advance index =>
    match reading.cursors[index]? with
    | none => (.ok (.item none), reading)
    | some cursor =>
      let (result, memo) := (cursor.walk.next forest forest.base).run reading.memo
      (result.map (.item ·.1), ⟨memo, reading.cursors.set index (cursor.advanced result)⟩)

section Step

variable {forest : Forest ε} {reading : Reading} {origin : NodeId} {index : Nat} {after : Memo}

theorem step_openWalk_ok {walk : Walk}
    (h : (forest.baseWalk origin).run reading.memo = (.ok walk, after)) :
    reading.step forest (.openWalk origin) =
      (.ok .opened, ⟨after, reading.cursors ++ [⟨origin, 0, walk⟩]⟩) := by
  simp only [step, h]

theorem step_openWalk_error {error : Error}
    (h : (forest.baseWalk origin).run reading.memo = (.error error, after)) :
    reading.step forest (.openWalk origin) = (.error error, ⟨after, reading.cursors⟩) := by
  simp only [step, h]

theorem step_advance_none (h : reading.cursors[index]? = none) :
    reading.step forest (.advance index) = (.ok (.item none), reading) := by
  simp only [step, h]

theorem step_advance_some {cursor : Cursor} {result : Except Error (Option NodeId × Walk)}
    (hcursor : reading.cursors[index]? = some cursor)
    (h : (cursor.walk.next forest forest.base).run reading.memo = (result, after)) :
    reading.step forest (.advance index) = (result.map (.item ·.1),
      ⟨after, reading.cursors.set index (cursor.advanced result)⟩) := by
  simp only [step, hcursor, h]

/-- What opening a walk comes to is what reading the base of its origin comes to. -/
theorem step_openWalk_fst : (reading.step forest (.openWalk origin)).1 =
    ((forest.baseWalk origin).run reading.memo).1.map fun _ ↦ .opened := by
  rcases hrun : (forest.baseWalk origin).run reading.memo with ⟨_ | _, _⟩
  · rw [step_openWalk_error hrun]
    rfl
  · rw [step_openWalk_ok hrun]
    rfl

end Step

end Reading

namespace Session

variable {ε : Type}

/-- What `reads`, one after the other, come to in a session. -/
def afterReads (session : Session ε) (reads : List (Read ε)) : Reading :=
  reads.foldl (fun reading read ↦ (reading.step session.forest read).2) ⟨session.memo, []⟩

/-- What the answer to `read` is after `reads`. -/
def answerAfter (session : Session ε) (reads : List (Read ε)) (read : Read ε) :
    Except Error (Answer ε) :=
  ((session.afterReads reads).step session.forest read).1

/-! ## Views -/

theorem run_liftM_bind_memo {α β : Type} (read : Except Error α) (next : α → Lookup β) (memo : Memo)
    (h : ∀ value, ((next value).run memo).2 = memo) :
    (((liftM read : Lookup α) >>= next).run memo).2 = memo := by
  rw [run_bind]
  cases read with
  | ok value => exact h value
  | error error => rfl

theorem view_run_memo (forest : Forest ε) (view : View) (memo : Memo) :
    ((view.answer forest).run memo).2 = memo := by
  cases view <;> first
    | rfl
    | exact run_liftM_bind_memo _ _ memo fun _ ↦ rfl
    | (simp only [View.answer]; split <;> rfl)

/-! ## What reads leave -/

variable {session : Session ε}

theorem Valid.steady_question (h : session.Valid) (question : Question ε) :
    Steady session.Settled (question.answer session.forest) := by
  cases question with
  | query asked => exact (h.steady_query asked).bind fun _ ↦ steady_pure _
  | declarations id => exact (Style.steady_visibleDeclarations h id).bind fun _ ↦ steady_pure _

/-- A walk that set out from `origin` and was advanced `advances` times has that much less of the
trail of `origin` to meet. -/
def Follows (session : Session ε) (cursor : Cursor) : Prop :=
  ∃ line, Trail session.baseOf [cursor.origin] cursor.origin line ∧
    Walk.Remaining session.baseOf cursor.walk (line.drop cursor.advances) ∧
    ∀ node, cursor.walk.position = .standing node → node < session.forest.size

/-- The reads of a session are consistent with what its bases are. -/
structure Consistent (session : Session ε) (reading : Reading) : Prop where
  settled : session.Settled reading.memo
  follows : ∀ cursor ∈ reading.cursors, session.Follows cursor

/-- One more advance of a walk gives the next item of its trail. -/
theorem Valid.keeps_next (h : session.Valid) {cursor : Cursor} {chain : List NodeId}
    (hline : Trail session.baseOf [cursor.origin] cursor.origin chain)
    (hremaining : Walk.Remaining session.baseOf cursor.walk (chain.drop cursor.advances))
    (hstand : ∀ node, cursor.walk.position = .standing node → node < session.forest.size) :
    ∃ after, Keeps session.Settled (cursor.walk.next session.forest session.forest.base)
        (.ok (chain[cursor.advances]?, after)) ∧
      session.Follows ⟨cursor.origin, cursor.advances + 1, after⟩ := by
  obtain ⟨after, hnext, hafter, hposition⟩ := Walk.next_returns h.closed h.baseOf_lt
    Valid.write_settled hremaining fun node hnode ↦ ⟨hstand node hnode, h.keeps_base node (hstand node hnode)⟩
  rw [List.head?_drop] at hnext
  rw [List.tail_drop] at hafter
  refine ⟨after, hnext, chain, hline, hafter, fun node hnode ↦ ?_⟩
  have hmem := List.mem_of_mem_head? (hposition node hnode)
  exact h.trail_lt hline node (List.mem_of_mem_drop hmem)

theorem Valid.consistent_step (h : session.Valid) {reading : Reading}
    (hreading : session.Consistent reading) (read : Read ε) :
    session.Consistent (reading.step session.forest read).2 := by
  cases read with
  | ask question => exact ⟨(h.steady_question question).kept_run hreading.settled, hreading.follows⟩
  | view view =>
    refine ⟨?_, hreading.follows⟩
    change session.Settled ((view.answer session.forest).run reading.memo).2
    rw [view_run_memo]
    exact hreading.settled
  | openWalk origin =>
    by_cases horigin : origin < session.forest.size
    · obtain ⟨line, hline⟩ := h.exists_trail horigin
      obtain ⟨walk, hwalk, hremaining, hposition⟩ := h.keeps_baseWalk horigin hline
      obtain ⟨after, hrun, hafter⟩ := hwalk reading.memo hreading.settled
      rw [Reading.step_openWalk_ok hrun]
      refine ⟨hafter, fun cursor hcursor ↦ ?_⟩
      rcases List.mem_append.mp hcursor with hcursor | hcursor
      · exact hreading.follows cursor hcursor
      · obtain rfl := List.mem_singleton.mp hcursor
        exact ⟨line, hline, hremaining, fun node hnode ↦ absurd hnode (hposition node)⟩
    · obtain ⟨after, hrun, hafter⟩ := returns_baseWalk_of_not_lt horigin reading.memo hreading.settled
      rw [Reading.step_openWalk_error hrun]
      exact ⟨hafter, hreading.follows⟩
  | advance index =>
    cases hindex : reading.cursors[index]? with
    | none =>
      rw [Reading.step_advance_none hindex]
      exact hreading
    | some cursor =>
      obtain ⟨line, hline, hremaining, hstand⟩ :=
        hreading.follows cursor (List.mem_of_getElem? hindex)
      obtain ⟨walk, hnext, hfollows⟩ := h.keeps_next hline hremaining hstand
      obtain ⟨after, hrun, hafter⟩ := hnext reading.memo hreading.settled
      rw [Reading.step_advance_some hindex hrun]
      refine ⟨hafter, fun other hother ↦ ?_⟩
      rcases List.mem_or_eq_of_mem_set hother with hother | rfl
      · exact hreading.follows other hother
      · exact hfollows

theorem Valid.consistent_foldl (h : session.Valid) {reading : Reading}
    (hreading : session.Consistent reading) (reads : List (Read ε)) : session.Consistent
      (reads.foldl (fun reading read ↦ (reading.step session.forest read).2) reading) := by
  induction reads generalizing reading with
  | nil => exact hreading
  | cons read reads ih => exact ih (h.consistent_step hreading read)

theorem Valid.consistent_afterReads (h : session.Valid) (reads : List (Read ε)) :
    session.Consistent (session.afterReads reads) :=
  h.consistent_foldl ⟨h.reflects, by simp⟩ reads

/-! ## What readers are told -/

/-- A query that comes to one result between queries is answered with it after any reads. -/
theorem Valid.answerAfter_query (h : session.Valid) {query : Query} {result : Except Error (Reply ε)}
    (hquery : Keeps session.Settled (query.answer session.forest) result) (reads : List (Read ε)) :
    session.answerAfter reads (.ask (.query query)) = result.map .reply := by
  have hsettled := (h.consistent_afterReads reads).settled
  change ((do return Answer.reply (← query.answer session.forest) : Lookup (Answer ε)).run
    (session.afterReads reads).memo).1 = _
  rw [run_map, hquery.run_eq hsettled]

/-- Whatever was read before, `read` is answered with `answer`. -/
def Answers (session : Session ε) (read : Read ε) (answer : Answer ε) : Prop :=
  ∀ reads, session.answerAfter reads read = .ok answer

theorem Valid.answers_query (h : session.Valid) {query : Query} {reply : Reply ε}
    (hquery : Keeps session.Settled (query.answer session.forest) (.ok reply)) :
    session.Answers (.ask (.query query)) (.reply reply) :=
  h.answerAfter_query hquery

/-- What a walk gives next depends on its origin and on how often it was advanced. -/
theorem Valid.advance_answer (h : session.Valid) {reading : Reading} {index : Nat} {cursor : Cursor}
    {chain : List NodeId} (hreading : session.Consistent reading)
    (hcursor : reading.cursors[index]? = some cursor)
    (hline : Trail session.baseOf [cursor.origin] cursor.origin chain) :
    (reading.step session.forest (.advance index)).1 = .ok (.item chain[cursor.advances]?) := by
  obtain ⟨chain', hline', hremaining, hstand⟩ :=
    hreading.follows cursor (List.mem_of_getElem? hcursor)
  obtain rfl := hline.unique hline'
  obtain ⟨walk, hnext, _⟩ := h.keeps_next hline hremaining hstand
  obtain ⟨after, hrun, _⟩ := hnext reading.memo hreading.settled
  rw [Reading.step_advance_some hcursor hrun]
  rfl

/-- After any two sequences of reads, questions are answered alike, walks open alike, and walks that
set out from one node and were advanced equally often give the same item next. -/
theorem Valid.answerAfter_eq (h : session.Valid) (first second : List (Read ε)) :
    (∀ question,
      session.answerAfter first (.ask question) = session.answerAfter second (.ask question)) ∧
    (∀ origin,
      session.answerAfter first (.openWalk origin) = session.answerAfter second (.openWalk origin)) ∧
    ∀ (i j : Nat) (left right : Cursor), (session.afterReads first).cursors[i]? = some left →
      (session.afterReads second).cursors[j]? = some right → left.origin = right.origin →
      left.advances = right.advances →
      session.answerAfter first (.advance i) = session.answerAfter second (.advance j) := by
  have hfirst := h.consistent_afterReads first
  have hsecond := h.consistent_afterReads second
  refine ⟨fun question ↦ ?_, fun origin ↦ ?_, fun i j left right hleft hright horigin hadvances ↦ ?_⟩
  · exact (h.steady_question question).run_eq hfirst.settled hsecond.settled
  · unfold answerAfter
    rw [Reading.step_openWalk_fst, Reading.step_openWalk_fst,
      (h.steady_baseWalk origin).run_eq hfirst.settled hsecond.settled]
  · obtain ⟨line, hline, _⟩ := hfirst.follows left (List.mem_of_getElem? hleft)
    unfold answerAfter
    rw [h.advance_answer hfirst hleft hline,
      h.advance_answer hsecond hright (horigin ▸ hline), hadvances]

/-- Reading the inner room first fills the slot of the outer one while the read of the inner one is
under way. -/
theorem houseOfRooms_answers_alike :
    let first : List (Read Unit) := [.ask (.query (.base 2)), .openWalk 0, .openWalk 1, .advance 0]
    let second : List (Read Unit) := [.openWalk 0, .advance 0, .ask (.query (.chain 1))]
    houseOfRooms.Valid ∧
      houseOfRooms.answerAfter first (.ask (.query (.base 1))) = .ok (.reply (.id? (some 2))) ∧
      houseOfRooms.answerAfter second (.ask (.query (.base 1))) = .ok (.reply (.id? (some 2))) ∧
      houseOfRooms.answerAfter first (.advance 0) = .ok (.item (some 2)) ∧
      houseOfRooms.answerAfter second (.advance 0) = .ok (.item (some 2)) := by
  intro first second
  have hvalid : houseOfRooms.Valid := by decide
  have hbase : houseOfRooms.answerAfter first (.ask (.query (.base 1))) = .ok (.reply (.id? (some 2))) := rfl
  have hitem : houseOfRooms.answerAfter first (.advance 0) = .ok (.item (some 2)) := rfl
  obtain ⟨hquestion, _, hadvance⟩ := Valid.answerAfter_eq hvalid first second
  refine ⟨hvalid, hbase, ?_, hitem, ?_⟩
  · exact (hquestion (.query (.base 1))).symm.trans hbase
  · exact (hadvance 0 0 _ _ rfl rfl rfl rfl).symm.trans hitem

end Session

end Lineage
