import Lineage.Lookup

/-!
# What a look-up comes to

`Returns pre look result post` says of a look-up what it answers and which memos it leaves: from
every memo of `pre` it comes to `result`, a value or an error, and leaves a memo of `post`.  The
facts below follow a look-up through its steps.

`Keeps` is the case of one property that holds before and after.  A look-up that keeps a property
has one answer only, whichever memo of the property it starts from; `Steady` says that there is
such an answer.
-/

namespace Lineage.Lookup

variable {α β : Type} {pre mid post kept : Memo → Prop}

/-- From every memo of `pre`, `look` comes to `result` and leaves a memo of `post`. -/
def Returns (pre : Memo → Prop) (look : Lookup α) (result : Except Error α)
    (post : Memo → Prop) : Prop :=
  ∀ memo, pre memo → ∃ after, look.run memo = (result, after) ∧ post after

/-- From every memo of `kept`, `look` comes to `result` and leaves another memo of `kept`. -/
abbrev Keeps (kept : Memo → Prop) (look : Lookup α) (result : Except Error α) : Prop :=
  Returns kept look result kept

def Steady (kept : Memo → Prop) (look : Lookup α) : Prop :=
  ∃ result, Keeps kept look result

/-! ## Steps -/

theorem run_bind {σ : Type} (look : ExceptT Error (StateM σ) α) (next : α → ExceptT Error (StateM σ) β)
    (state : σ) : (look >>= next).run state =
      match look.run state with
      | (.ok value, after) => (next value).run after
      | (.error error, after) => (.error error, after) := by
  change (match look.run state with
    | (result, after) => (ExceptT.bindCont next result) after) = _
  rcases look.run state with ⟨result, after⟩
  cases result with
  | ok value => rfl
  | error error => rfl

theorem run_bind_ok {σ : Type} {look : ExceptT Error (StateM σ) α} {state after : σ} {value : α}
    (h : look.run state = (.ok value, after)) (next : α → ExceptT Error (StateM σ) β) :
    (look >>= next).run state = (next value).run after := by
  rw [run_bind, h]

theorem exists_of_run_bind_eq_ok {σ : Type} {look : ExceptT Error (StateM σ) α}
    {next : α → ExceptT Error (StateM σ) β} {state after : σ} {value : β}
    (h : (look >>= next).run state = (.ok value, after)) :
    ∃ found between, look.run state = (.ok found, between) ∧
      (next found).run between = (.ok value, after) := by
  rw [run_bind] at h
  rcases hlook : look.run state with ⟨error | found, between⟩
  · rw [hlook] at h
    exact nomatch h
  · rw [hlook] at h
    exact ⟨found, between, rfl, h⟩

/-- What is made of an answer does not matter for the state that is left. -/
theorem run_map {σ : Type} (look : ExceptT Error (StateM σ) α) (f : α → β) (state : σ) :
    (look >>= fun value ↦ pure (f value)).run state =
      ((look.run state).1.map f, (look.run state).2) := by
  rw [run_bind]
  rcases look.run state with ⟨_ | _, _⟩ <;> rfl

theorem returns_pure (value : α) : Returns pre (pure value) (.ok value) pre := by
  intro memo hmemo
  exact ⟨memo, rfl, hmemo⟩

theorem returns_throw (error : Error) : Returns pre (throw error : Lookup α) (.error error) pre := by
  intro memo hmemo
  exact ⟨memo, rfl, hmemo⟩

/-- What is read off the forest leaves the memo alone. -/
theorem returns_liftM (read : Except Error α) : Returns pre (liftM read : Lookup α) read pre := by
  intro memo hmemo
  exact ⟨memo, rfl, hmemo⟩

theorem returns_fill {id : NodeId} {slot : Slot}
    (h : ∀ memo, pre memo → post (memo.fill id slot)) : Returns pre (fill id slot) (.ok ()) post := by
  intro memo hmemo
  exact ⟨memo.fill id slot, rfl, h memo hmemo⟩

theorem Returns.bind {look : Lookup α} {next : α → Lookup β} {value : α}
    {result : Except Error β} (hlook : Returns pre look (.ok value) mid)
    (hnext : Returns mid (next value) result post) : Returns pre (look >>= next) result post := by
  intro memo hmemo
  obtain ⟨between, hrun, hbetween⟩ := hlook memo hmemo
  obtain ⟨after, hrun', hafter⟩ := hnext between hbetween
  refine ⟨after, ?_, hafter⟩
  rw [run_bind, hrun]
  exact hrun'

theorem Returns.bind_error {look : Lookup α} {error : Error} (next : α → Lookup β)
    (hlook : Returns pre look (.error error) post) :
    Returns pre (look >>= next) (.error error) post := by
  intro memo hmemo
  obtain ⟨after, hrun, hafter⟩ := hlook memo hmemo
  refine ⟨after, ?_, hafter⟩
  rw [run_bind, hrun]

theorem Returns.weaken {look : Lookup α} {result : Except Error α} {post' : Memo → Prop}
    (h : Returns pre look result post) (hpost : ∀ memo, post memo → post' memo) :
    Returns pre look result post' := by
  intro memo hmemo
  obtain ⟨after, hrun, hafter⟩ := h memo hmemo
  exact ⟨after, hrun, hpost after hafter⟩

theorem Returns.run_eq {look : Lookup α} {result : Except Error α} (h : Returns pre look result post)
    {memo : Memo} (hmemo : pre memo) : (look.run memo).1 = result := by
  obtain ⟨_, hrun, _⟩ := h memo hmemo
  rw [hrun]

/-- A look-up that asks for a slot goes on as its state says. -/
theorem Returns.bind_slot {id : NodeId} {next : Slot → Lookup β} {result : Except Error β}
    (h : ∀ state, Returns (fun memo ↦ pre memo ∧ memo.slot id = state) (next state) result post) :
    Returns pre (slot id >>= next) result post := by
  intro memo hmemo
  obtain ⟨after, hrun, hafter⟩ := h (memo.slot id) memo ⟨hmemo, rfl⟩
  exact ⟨after, hrun, hafter⟩

/-- A report writes to the journal only, if what it reports can be made up. -/
theorem keeps_report {event : Lookup Event} {written : Event}
    (hevent : Keeps kept event (.ok written))
    (hwrite : ∀ memo, kept memo → kept (memo.write written)) : Keeps kept (report event) (.ok ()) := by
  intro memo hmemo
  obtain ⟨between, hrun, hbetween⟩ := hevent memo hmemo
  unfold report
  rw [run_bind]
  by_cases hjournal : memo.journal.isSome
  · refine ⟨between.write written, ?_, hwrite between hbetween⟩
    change (if memo.journal.isSome then _ else _ : Lookup Unit).run memo = _
    rw [if_pos hjournal, run_bind, hrun]
    rfl
  · refine ⟨memo, ?_, hmemo⟩
    change (if memo.journal.isSome then _ else _ : Lookup Unit).run memo = _
    rw [if_neg hjournal]
    rfl

/-! ## Lists of look-ups -/

theorem keeps_mapM {look : α → Lookup β} {value : α → β} {items : List α}
    (h : ∀ item ∈ items, Keeps kept (look item) (.ok (value item))) :
    Keeps kept (items.mapM look) (.ok (items.map value)) := by
  induction items with
  | nil => exact returns_pure []
  | cons item items ih =>
    obtain ⟨hitem, hitems⟩ := List.forall_mem_cons.mp h
    rw [List.mapM_cons]
    exact hitem.bind ((ih hitems).bind (returns_pure _))

/-! ## Answers that do not depend on the memo -/

/-- From two memos of what it keeps, a steady look-up answers the same. -/
theorem Steady.run_eq {look : Lookup α} (h : Steady kept look) {left right : Memo}
    (hleft : kept left) (hright : kept right) : (look.run left).1 = (look.run right).1 := by
  obtain ⟨result, hresult⟩ := h
  rw [hresult.run_eq hleft, hresult.run_eq hright]

theorem Steady.kept_run {look : Lookup α} (h : Steady kept look) {memo : Memo} (hmemo : kept memo) :
    kept (look.run memo).2 := by
  obtain ⟨result, hresult⟩ := h
  obtain ⟨_, hrun, hafter⟩ := hresult memo hmemo
  rw [hrun]
  exact hafter

theorem steady_pure (value : α) : Steady kept (pure value) := ⟨_, returns_pure value⟩

theorem steady_throw (error : Error) : Steady kept (throw error : Lookup α) := ⟨_, returns_throw error⟩

theorem steady_liftM (read : Except Error α) : Steady kept (liftM read : Lookup α) :=
  ⟨_, returns_liftM read⟩

theorem Steady.bind {look : Lookup α} {next : α → Lookup β} (hlook : Steady kept look)
    (hnext : ∀ value, Steady kept (next value)) : Steady kept (look >>= next) := by
  obtain ⟨result, hresult⟩ := hlook
  cases result with
  | error error => exact ⟨_, hresult.bind_error next⟩
  | ok value =>
    obtain ⟨result, hnextResult⟩ := hnext value
    exact ⟨result, hresult.bind hnextResult⟩

theorem steady_mapM {look : α → Lookup β} (h : ∀ item, Steady kept (look item)) (items : List α) :
    Steady kept (items.mapM look) := by
  induction items with
  | nil => exact steady_pure []
  | cons item items ih =>
    rw [List.mapM_cons]
    exact (h item).bind fun _ ↦ ih.bind fun _ ↦ steady_pure _

theorem steady_foldlM {look : β → α → Lookup β} (h : ∀ merged item, Steady kept (look merged item))
    (items : List α) (start : β) : Steady kept (items.foldlM look start) := by
  induction items generalizing start with
  | nil => exact steady_pure start
  | cons item items ih =>
    rw [List.foldlM_cons]
    exact (h start item).bind ih

end Lineage.Lookup
