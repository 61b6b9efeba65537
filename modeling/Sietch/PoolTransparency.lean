import Sietch.BufferPoolSpec
import Sietch.Base.Run

/-! The buffer pool over a store whose reads and writes may fail. A client that keeps to
the pin protocol sees every page as it last left it, whatever was evicted in between
and whatever failed. -/
namespace Sietch
open Transition

/-- A map of pages. A call that fails has no effect on it. -/
structure FallibleStore (S : Type) {ε : Type} [PageStore S ε] where
  pages : S → PageId → Option Page
  read : ∀ s id, PageStore.readPage s id = .ok (pages s id) ∨
    ∃ e, PageStore.readPage s id = .err e
  write : ∀ s id page, Proc.Ends (PageStore.writePage id page) s
    (fun _ s' => pages s' = Function.update (pages s) id (some page))
    (fun s' => pages s' = pages s) False
  allocate : ∀ s, Proc.Ends PageStore.allocatePageId s (fun _ s' => pages s' = pages s)
    (fun _ => False) (∃ s', PageStore.allocatePageId s = (.panic, s'))

namespace FallibleStore
variable {S ε : Type} [PageStore S ε] (M : FallibleStore S)

/-- What the store shows of a page: an empty data page where it has none. -/
def stored (s : S) (id : PageId) : Page := (M.pages s id).getD (Page.new .data)

/-- Every id has a content: a missing page is not told from an empty one. Calls may fail at
any time, but do not halt. -/
def model : StoreModel S Page Unit where
  Shows p o := p = o
  blank := Page.new
  Writable _ := True
  Rep s disk _ := disk = fun id => some (M.stored s id)
  Fails _ := True
  Halts _ := False
  spend := id
  shows_new _ := rfl
  weaken h := h
  read := by
    rintro s disk u rfl id -
    rcases M.read s id with hread | ⟨e, hread⟩
    · exact .inl ⟨_, hread, rfl⟩
    · exact .inr ⟨e, hread, trivial⟩
  write := by
    rintro s disk u rfl id page o rfl -
    refine (M.write s id page).mono ?_ ?_ (fun hP => hP)
    · intro _ s' hs
      funext j
      by_cases hj : j = id
      · subst hj
        simp [stored, hs]
      · simp [stored, hs, Function.update_of_ne hj]
    · intro s' hs
      refine ⟨?_, trivial⟩
      funext j
      simp only [stored, hs]

end FallibleStore

def MemPageStore.fallible : FallibleStore MemPageStore where
  pages s := s.pages.get?
  read _ _ := .inl rfl
  write s id page := by
    funext j
    exact (SortedMap.get?_insert s.pages id page j).trans (Function.update_apply ..).symm
  allocate s := by
    rw [Proc.Ends]
    cases hx : PageStore.allocatePageId s with
    | mk o t =>
        have hmem : MemPageStore.allocatePageId s = (o, t) := hx
        rw [MemPageStore.allocatePageId] at hmem
        split at hmem
        · cases hmem
          rfl
        · cases hmem
          exact ⟨s, rfl⟩

namespace BufferPool
variable {S ε : Type} [PageStore S ε] {M : FallibleStore S} {v : View Page Unit}
  {p : BufferPool S} {id : PageId} {capacity : Nat}

theorem newPage_fallible (h : Sees M.model capacity v p) (t : PageType)
    (hfresh : ∀ id s, PageStore.allocatePageId p.store = (.ok id, s) → ¬ v.known id) :
    Proc.Ends (newPage t) p (fun id p' => Sees M.model capacity (v.created M.model id t ()) p')
      (Sees M.model capacity v) (∃ s, PageStore.allocatePageId p.store = (.panic, s)) := by
  refine (newPage_ends h t (N := fun _ _ => True) (fun disk hdisk => ?_)).mono ?_ ?_
    (fun hP => hP)
  · have hlaw := M.allocate p.store
    rw [Proc.Ends] at hlaw ⊢
    cases hx : PageStore.allocatePageId p.store with
    | mk o s =>
        rw [hx] at hlaw
        cases o with
        | ok id =>
            refine ⟨hfresh id s hx, trivial, (), ?_, trivial, (fun hf => hf), False.elim⟩
            rw [show disk = _ from hdisk]
            funext j
            simp only [FallibleStore.stored, show M.pages s = _ from hlaw]
        | err e => exact hlaw
        | panic => exact ⟨s, rfl⟩
  · rintro id p' ⟨b, -, hsees⟩
    exact hsees
  · rintro p' ⟨⟨id, b, -, hsees⟩, -⟩
    exact hsees

def visible (M : FallibleStore S) (p : BufferPool S) (id : PageId) : Page :=
  match p.frame? id with
  | some f => f.page
  | none => M.stored p.store id

theorem Sees.visible (h : Sees M.model capacity v p) {o : Page} (ho : v.content id = some o) :
    visible M p id = o := by
  obtain ⟨-, disk, h⟩ := h
  rw [BufferPool.visible]
  cases hf : p.frame? id with
  | none =>
      have hdisk := (h.uncached id hf).1
      rw [show disk = _ from h.stored, ho] at hdisk
      exact Option.some.inj hdisk
  | some f =>
      have hshown := (h.cached id f hf).shown
      rw [h.wf.pageId_eq hf, ho] at hshown
      exact hshown

theorem Sees.pinCount (h : Sees M.model capacity v p) (id : PageId) :
    pinCount (ε := ε) id p = (.ok (v.pins.count id), p) := by
  obtain ⟨-, disk, h⟩ := h
  rw [BufferPool.pinCount]
  cases hf : p.frame? id with
  | none =>
      rw [Proc.bind_ok (h.wf.frameOf_none hf), List.count_eq_zero.mpr (h.uncached id hf).2]
      rfl
  | some f =>
      obtain ⟨idx, hframe, -⟩ := h.wf.frameOf_eq (ε := ε) hf
      have hpinned := (h.cached id f hf).pinned
      rw [h.wf.pageId_eq hf] at hpinned
      rw [Proc.bind_ok hframe, ← hpinned]
      rfl

end BufferPool

inductive PoolCall where
  | newPage (t : PageType)
  | fetch (id : PageId)
  | pageMut (id : PageId) (new : Page)
  | unpin (id : PageId) (dirtied : Bool)
  | flush (id : PageId)
  | flushAll

namespace PoolCall
variable {S ε : Type} [PageStore S ε]

/-- Only `new_page` returns a value. -/
def exec : PoolCall → Proc (BufferPool S) (BufferError ε) (Option PageId)
  | newPage t => do return some (← BufferPool.newPage t)
  | fetch id => do BufferPool.fetch id; return none
  | pageMut id new => do BufferPool.pageMut id new; return none
  | unpin id dirtied => do BufferPool.unpin id dirtied; return none
  | flush id => do BufferPool.flush id; return none
  | flushAll => do BufferPool.flushAll; return none

end PoolCall

/-- A pool with the history of its client: the content it last gave each page, the pins it
holds, the pages it changed and did not mark dirty yet, and the ids it fetched or was
given. -/
structure PoolClient (S : Type) where
  pool : BufferPool S
  given : PageId → Option Page
  pins : List PageId
  loose : List PageId
  used : List PageId

namespace PoolClient
variable {S ε : Type}

def start (pool : BufferPool S) : PoolClient S := ⟨pool, fun _ => none, [], [], []⟩

def after (c : PoolClient S) (pool : BufferPool S) : PoolCall → Option PageId → PoolClient S
  | .newPage t, some id =>
      { c with pool, given := Function.update c.given id (some (Page.new t)),
               pins := id :: c.pins, used := id :: c.used }
  | .fetch id, _ => { c with pool, pins := id :: c.pins, used := id :: c.used }
  | .pageMut id new, _ =>
      { c with pool, given := Function.update c.given id (some new), loose := id :: c.loose }
  | .unpin id dirtied, _ =>
      { c with pool, pins := c.pins.erase id,
               loose := if dirtied then c.loose.filter (· ≠ id) else c.loose }
  | _, _ => { c with pool }

variable [PageStore S ε]

def shown (M : FallibleStore S) (s₀ : S) (c : PoolClient S) (id : PageId) : Page :=
  ((c.given id).or (M.pages s₀ id)).getD (Page.new .data)

/-- The protocol: a page is changed under a pin, and between a change and the `unpin` that
marks it dirty the client does not give up its last pin. Ids are not allocated twice. -/
def Allowed (c : PoolClient S) : PoolCall → Prop
  | .newPage _ => ∀ id s, PageStore.allocatePageId c.pool.store = (.ok id, s) → id ∉ c.used
  | .pageMut id _ => id ∈ c.pins
  | .unpin id dirtied => dirtied = false → id ∈ c.loose → id ∈ c.pins.erase id
  | _ => True

end PoolClient

inductive PoolEvent (ε : Type) where
  | call (e : PoolCall) (reply : Outcome (BufferError ε) (Option PageId))
  | store

/-- A call that returns, or a change of the store that leaves its pages as they are: the
store may fail now where it did not before. -/
inductive PoolStep {S ε : Type} [PageStore S ε] (M : FallibleStore S) :
    PoolClient S → PoolEvent ε → PoolClient S → Prop where
  | ok {c : PoolClient S} {e : PoolCall} {r : Option PageId} {pool : BufferPool S}
      (allowed : c.Allowed e) (run : e.exec c.pool = (.ok r, pool)) :
      PoolStep M c (.call e (.ok r)) (c.after pool e r)
  | err {c : PoolClient S} {e : PoolCall} {x : BufferError ε} {pool : BufferPool S}
      (allowed : c.Allowed e) (run : e.exec c.pool = (.err x, pool)) :
      PoolStep M c (.call e (.err x)) { c with pool }
  | store {c : PoolClient S} {s : S} (same : M.pages s = M.pages c.pool.store) :
      PoolStep M c .store { c with pool := { c.pool with store := s } }

namespace PoolClient
variable {S ε : Type} [PageStore S ε] {M : FallibleStore S} {s₀ : S} {c c' : PoolClient S}
  {capacity : Nat}
open BufferPool

def view (M : FallibleStore S) (s₀ : S) (c : PoolClient S) : View Page Unit :=
  ⟨fun id => some (c.shown M s₀ id), c.pins, c.loose, (· ∈ c.used), ()⟩

theorem shown_given (id : PageId) (o : Page) {d : PoolClient S}
    (hd : d.given = Function.update c.given id (some o)) :
    (fun i => some (d.shown M s₀ i)) =
      Function.update (fun i => some (c.shown M s₀ i)) id (some o) := by
  funext i
  by_cases hi : i = id
  · subst hi
    simp [shown, hd]
  · simp [shown, hd, Function.update_of_ne hi]

theorem known_cons (id : PageId) (used : List PageId) :
    (fun i => i ∈ id :: used) = fun i => i = id ∨ i ∈ used := by
  funext i
  exact propext List.mem_cons

/-- When a call of the client panics: at the end of the pin count or of the page ids. -/
def Overflows (c : PoolClient S) : PoolCall → Prop
  | .fetch id => 2 ^ 32 ≤ c.pins.count id + 1
  | .newPage _ => ∃ s, PageStore.allocatePageId c.pool.store = (.panic, s)
  | _ => False

theorem exec_ends (h : Sees M.model capacity (c.view M s₀) c.pool) {e : PoolCall}
    (hallowed : c.Allowed e) :
    Proc.Ends e.exec c.pool
      (fun r pool => Sees M.model capacity ((c.after pool e r).view M s₀) pool)
      (Sees M.model capacity (c.view M s₀)) (c.Overflows e) := by
  cases e with
  | newPage t =>
      refine (newPage_fallible h t hallowed).bind (fun _ hs => hs) (fun id pool hs => ?_)
      rw [View.created] at hs
      show Sees M.model capacity (view M s₀ _) pool
      rw [view, shown_given id (Page.new t) rfl]
      simp only [after, known_cons]
      exact hs
  | fetch id =>
      refine ((fetch_ends h trivial).mono (fun _ _ hQ => hQ) (fun _ hR => hR.1) ?_).bind
        (fun _ hs => hs) (fun _ pool hs => ?_)
      · exact fun hP => hP.resolve_left False.elim
      · show Sees M.model capacity (view M s₀ _) pool
        simp only [view, after, known_cons]
        exact hs
  | pageMut id new =>
      refine ((pageMut_returns (ε := ε) h hallowed rfl).ends _ _).bind (fun _ hs => hs)
        (fun _ pool hs => ?_)
      show Sees M.model capacity (view M s₀ _) pool
      rw [view, shown_given id new rfl]
      exact hs
  | unpin id dirtied =>
      by_cases hid : id ∈ c.pins
      · exact ((unpin_returns (ε := ε) h hid (fun _ => rfl) hallowed).ends _ _).bind
          (fun _ hs => hs) (fun _ pool hs => hs)
      · rw [PoolCall.exec, Proc.Ends, Proc.bind_err (unpin_unheld h hid dirtied)]
        exact h
  | flush id =>
      obtain ⟨hcap, disk, hrep⟩ := h
      refine ((flush_ends hrep id).mono ?_ ?_ (fun hP => hP)).bind (fun _ hs => hs)
        (fun _ pool hs => hs)
      · rintro - pool ⟨hcap', -, disk', hrep', -⟩
        exact ⟨hcap'.trans hcap, disk', hrep'⟩
      · rintro pool ⟨⟨hcap', hrep'⟩, -⟩
        exact ⟨hcap'.trans hcap, hrep'⟩
  | flushAll =>
      refine ((flushAll_ends h).mono ?_ ?_ ?_).bind (fun _ hs => hs) (fun _ pool hs => hs)
      · rintro - pool ⟨hcap, n, disk, -, hrep, -⟩
        exact ⟨hcap, disk, hrep⟩
      · rintro pool ⟨n, hsees, -⟩
        exact hsees
      · rintro ⟨n, -, hhalt⟩
        exact hhalt

theorem sees_step {e : PoolEvent ε} (hstep : PoolStep M c e c')
    (h : Sees M.model capacity (c.view M s₀) c.pool) :
    Sees M.model capacity (c'.view M s₀) c'.pool := by
  cases hstep with
  | @ok e r pool allowed run =>
      have hs := (exec_ends h allowed).ok run
      have hpool : (c.after pool e r).pool = pool := by
        cases e <;> cases r <;> rfl
      rw [hpool]
      exact hs
  | err allowed run => exact (exec_ends h allowed).err run
  | @store s same =>
      obtain ⟨hcap, disk, h⟩ := h
      refine ⟨hcap, disk, h.rebudget ?_⟩
      rw [show disk = _ from h.stored]
      funext j
      simp only [FallibleStore.stored, same]

theorem sees_start {p₀ : BufferPool S} (hnew : BufferPool.new (ε := ε) s₀ capacity = .ok p₀) :
    Sees M.model capacity ((start p₀).view M s₀) (start p₀).pool := by
  have hview : (start p₀).view M s₀ =
      ⟨fun id => some (M.stored s₀ id), [], [], (· ∈ ([] : List PageId)), ()⟩ := by
    simp [view, start, shown, FallibleStore.stored]
  rw [hview]
  exact new_sees (M := M.model) rfl (fun _ _ => trivial) hnew

end PoolClient

section Transparency
variable {S ε : Type} [PageStore S ε]
open BufferPool

/-- In every state that a client can reach: a `fetch` that succeeds shows the content last
given to the page, the pages that the client holds are cached with as many pins, the page
table and the frames are in one-to-one correspondence, a call that fails changes no pin
count and no visible content, and no call panics but at the end of a counter. -/
theorem buffer_pool_transparent (M : FallibleStore S) {s₀ : S} {capacity : Nat}
    {p₀ : BufferPool S} (hnew : BufferPool.new (ε := ε) s₀ capacity = .ok p₀)
    {events : List (PoolEvent ε)} {c : PoolClient S}
    (hrun : Run (PoolStep M) (PoolClient.start p₀) events c) :
    (∀ id r c', PoolStep M c (.call (.fetch id) (.ok r)) c' →
      page (ε := ε) id c'.pool = (.ok (some (c.shown M s₀ id)), c'.pool)) ∧
    (∀ id, pinCount (ε := ε) id c.pool = (.ok (c.pins.count id), c.pool)) ∧
    (∀ id ∈ c.pins, (c.pool.pageTable.get? id).isSome) ∧
    (∀ id idx, c.pool.pageTable.get? id = some idx ↔
      ∃ f, c.pool.frames[idx]? = some f ∧ f.pageId = id) ∧
    (∀ e x c', PoolStep M c (.call e (.err x)) c' → ∀ id,
      pinCount (ε := ε) id c'.pool = (.ok (c.pins.count id), c'.pool) ∧
      visible M c'.pool id = visible M c.pool id ∧
      visible M c.pool id = c.shown M s₀ id) ∧
    (∀ e pool, c.Allowed e → e.exec (ε := ε) c.pool = (.panic, pool) → c.Overflows e) := by
  have hsees : Sees M.model capacity (c.view M s₀) c.pool :=
    hrun.invariant (I := fun c => Sees M.model capacity (c.view M s₀) c.pool)
      (PoolClient.sees_start hnew) (fun _ _ _ h hstep => PoolClient.sees_step hstep h)
  refine ⟨fun id r c' hstep => ?_, hsees.pinCount, fun id hid => ?_, fun id idx => ?_,
    fun e x c' hstep id => ?_, fun e pool hallowed hpanic => ?_⟩
  · have hafter := PoolClient.sees_step hstep hsees
    cases hstep with
    | ok allowed run =>
        obtain ⟨pg, hpage, hshown⟩ := page_sees (ε := ε) hafter (List.mem_cons_self (a := id) ..)
        rw [hpage, show pg = _ from hshown]
        rfl
  · obtain ⟨-, disk, hrep⟩ := hsees
    obtain ⟨f, hf⟩ := hrep.frame_of_pinned hid
    obtain ⟨idx, hget, -⟩ := hrep.wf.frame?_eq_some.mp hf
    rw [hget]
    rfl
  · obtain ⟨-, disk, hrep⟩ := hsees
    rw [hrep.wf.table id idx]
    simp
  · have hafter := PoolClient.sees_step hstep hsees
    cases hstep with
    | err allowed run =>
        exact ⟨hafter.pinCount id, by rw [hafter.visible rfl, hsees.visible rfl]; rfl,
          hsees.visible rfl⟩
  · exact (PoolClient.exec_ends hsees hallowed).panic hpanic

/-- The protocol without its care for the last pin. A client that keeps to it has marked every
page dirty after its last change when no page is loose. -/
def PoolClient.PlainlyAllowed (c : PoolClient S) : PoolCall → Prop
  | .newPage _ => ∀ id s, PageStore.allocatePageId c.pool.store = (.ok id, s) → id ∉ c.used
  | .pageMut id _ => id ∈ c.pins
  | _ => True

def PlainStep (c : PoolClient S) (e : PoolCall × Option PageId) (c' : PoolClient S) : Prop :=
  c.PlainlyAllowed e.1 ∧ ∃ pool, e.1.exec c.pool = (.ok e.2, pool) ∧ c' = c.after pool e.1 e.2

def oneFrame (pages : SortedMap PageId Page) (f : Frame) : BufferPool MemPageStore :=
  ⟨⟨pages, 2⟩, 1, [f], SortedMap.empty.insert f.pageId 0, 0⟩

def storedLeaf : SortedMap PageId Page := SortedMap.empty.insert 1 (Page.new .btreeLeaf)

def storedData : SortedMap PageId Page := SortedMap.empty.insert 1 (Page.new .data)

theorem leaf_ne_data : Page.new .btreeLeaf ≠ Page.new .data := by
  intro h
  have htypes := congrArg Page.pageType h
  cases htypes

attribute [local irreducible] Page.new

/-- The first page is changed and evicted, a `fetch` of it fails while the other one is
pinned, and the next one shows the change. -/
theorem buffer_pool_transparent_evicted : ∃ events c c',
    Run (PoolStep MemPageStore.fallible)
      (PoolClient.start (⟨.new, 1, [], .empty, 0⟩ : BufferPool MemPageStore)) events c ∧
    PoolStep MemPageStore.fallible c (.call (.fetch 1) (.ok none)) c' ∧
    page (ε := Empty) 1 c'.pool = (.ok (some (Page.new .btreeLeaf)), c'.pool) := by
  let M := MemPageStore.fallible
  let c₀ := PoolClient.start (⟨.new, 1, [], .empty, 0⟩ : BufferPool MemPageStore)
  let g₁ := Function.update c₀.given 1 (some (Page.new .data))
  let g₂ := Function.update g₁ 1 (some (Page.new .btreeLeaf))
  let c₁ : PoolClient MemPageStore :=
    ⟨oneFrame .empty ⟨1, Page.new .data, 1, true, true⟩, g₁, [1], [], [1]⟩
  let c₂ : PoolClient MemPageStore :=
    ⟨oneFrame .empty ⟨1, Page.new .btreeLeaf, 1, true, true⟩, g₂, [1], [1], [1]⟩
  let c₃ : PoolClient MemPageStore :=
    ⟨oneFrame .empty ⟨1, Page.new .btreeLeaf, 0, true, true⟩, g₂, [], [], [1]⟩
  let c₄ : PoolClient MemPageStore :=
    ⟨oneFrame storedLeaf ⟨2, Page.new .data, 1, false, true⟩, g₂, [2], [], [2, 1]⟩
  let c₅ : PoolClient MemPageStore :=
    ⟨oneFrame storedLeaf ⟨2, Page.new .data, 0, false, true⟩, g₂, [], [], [2, 1]⟩
  let c₆ : PoolClient MemPageStore :=
    ⟨oneFrame storedLeaf ⟨1, Page.new .btreeLeaf, 1, false, true⟩, g₂, [1], [], [1, 2, 1]⟩
  have h₁ : PoolStep M c₀ (.call (.newPage .data) (.ok (some 1))) c₁ :=
    .ok (fun _ _ _ => List.not_mem_nil) rfl
  have h₂ : PoolStep M c₁ (.call (.pageMut 1 (Page.new .btreeLeaf)) (.ok none)) c₂ :=
    .ok (List.mem_cons_self ..) rfl
  have h₃ : PoolStep M c₂ (.call (.unpin 1 true) (.ok none)) c₃ :=
    .ok (fun hd => by cases hd) rfl
  have hevict : (PoolCall.fetch 2).exec (ε := Empty)
      (oneFrame .empty ⟨1, Page.new .btreeLeaf, 0, true, true⟩) =
      (.ok none, oneFrame storedLeaf ⟨2, Page.new .data, 1, false, true⟩) := rfl
  have h₄ : PoolStep M c₃ (.call (.fetch 2) (.ok none)) c₄ := .ok trivial hevict
  have hfull : (PoolCall.fetch 1).exec (ε := Empty)
      (oneFrame storedLeaf ⟨2, Page.new .data, 1, false, true⟩) =
      (.err (.poolExhausted 1), oneFrame storedLeaf ⟨2, Page.new .data, 1, false, true⟩) := rfl
  have h₅ : PoolStep M c₄ (.call (.fetch 1) (.err (.poolExhausted 1))) c₄ := .err trivial hfull
  have h₆ : PoolStep M c₄ (.call (.unpin 2 false) (.ok none)) c₅ :=
    .ok (fun _ hl => absurd hl List.not_mem_nil) rfl
  have hagain : (PoolCall.fetch 1).exec (ε := Empty)
      (oneFrame storedLeaf ⟨2, Page.new .data, 0, false, true⟩) =
      (.ok none, oneFrame storedLeaf ⟨1, Page.new .btreeLeaf, 1, false, true⟩) := rfl
  have h₇ : PoolStep M c₅ (.call (.fetch 1) (.ok none)) c₆ := .ok trivial hagain
  have hrun := (((((Run.nil.snoc h₁).snoc h₂).snoc h₃).snoc h₄).snoc h₅).snoc h₆
  have hall := buffer_pool_transparent M (show BufferPool.new _ 1 = _ from rfl) hrun
  exact ⟨_, _, _, hrun, h₇, hall.1 1 none c₆ h₇⟩

/-- A page is flushed, changed and given up without being marked. It is evicted unwritten, and
the next `fetch` of it, after which the client does mark it, shows the old content. -/
theorem unmarked_change_lost : ∃ calls c c' c'',
    Run PlainStep (PoolClient.start (⟨.new, 1, [], .empty, 0⟩ : BufferPool MemPageStore)) calls c ∧
    PlainStep c (.fetch 1, none) c' ∧ PlainStep c' (.unpin 1 true, none) c'' ∧
    c''.pins = [] ∧ c''.loose = [] ∧
    c.shown MemPageStore.fallible .new 1 = Page.new .btreeLeaf ∧
    page (ε := Empty) 1 c'.pool = (.ok (some (Page.new .data)), c'.pool) ∧
    Page.new .btreeLeaf ≠ Page.new .data := by
  let c₀ := PoolClient.start (⟨.new, 1, [], .empty, 0⟩ : BufferPool MemPageStore)
  let g₁ := Function.update c₀.given 1 (some (Page.new .data))
  let g₂ := Function.update g₁ 1 (some (Page.new .btreeLeaf))
  let c₁ : PoolClient MemPageStore :=
    ⟨oneFrame .empty ⟨1, Page.new .data, 1, true, true⟩, g₁, [1], [], [1]⟩
  let c₂ : PoolClient MemPageStore :=
    ⟨oneFrame .empty ⟨1, Page.new .data, 0, true, true⟩, g₁, [], [], [1]⟩
  let c₃ : PoolClient MemPageStore :=
    ⟨oneFrame storedData ⟨1, Page.new .data, 0, false, true⟩, g₁, [], [], [1]⟩
  let c₄ : PoolClient MemPageStore :=
    ⟨oneFrame storedData ⟨1, Page.new .data, 1, false, true⟩, g₁, [1], [], [1, 1]⟩
  let c₅ : PoolClient MemPageStore :=
    ⟨oneFrame storedData ⟨1, Page.new .btreeLeaf, 1, false, true⟩, g₂, [1], [1], [1, 1]⟩
  let c₆ : PoolClient MemPageStore :=
    ⟨oneFrame storedData ⟨1, Page.new .btreeLeaf, 0, false, true⟩, g₂, [], [1], [1, 1]⟩
  let c₇ : PoolClient MemPageStore :=
    ⟨oneFrame storedData ⟨2, Page.new .data, 1, false, true⟩, g₂, [2], [1], [2, 1, 1]⟩
  let c₈ : PoolClient MemPageStore :=
    ⟨oneFrame storedData ⟨2, Page.new .data, 0, false, true⟩, g₂, [], [1], [2, 1, 1]⟩
  let c₉ : PoolClient MemPageStore :=
    ⟨oneFrame storedData ⟨1, Page.new .data, 1, false, true⟩, g₂, [1], [1], [1, 2, 1, 1]⟩
  let c₁₀ : PoolClient MemPageStore :=
    ⟨oneFrame storedData ⟨1, Page.new .data, 0, true, true⟩, g₂, [], [], [1, 2, 1, 1]⟩
  have h₁ : PlainStep c₀ (.newPage .data, some 1) c₁ :=
    ⟨fun _ _ _ => List.not_mem_nil, _, rfl, rfl⟩
  have h₂ : PlainStep c₁ (.unpin 1 true, none) c₂ := ⟨trivial, _, rfl, rfl⟩
  have h₃ : PlainStep c₂ (.flush 1, none) c₃ := ⟨trivial, _, rfl, rfl⟩
  have h₄ : PlainStep c₃ (.fetch 1, none) c₄ := ⟨trivial, _, rfl, rfl⟩
  have h₅ : PlainStep c₄ (.pageMut 1 (Page.new .btreeLeaf), none) c₅ :=
    ⟨List.mem_cons_self .., _, rfl, rfl⟩
  have h₆ : PlainStep c₅ (.unpin 1 false, none) c₆ := ⟨trivial, _, rfl, rfl⟩
  have hevict : (PoolCall.fetch 2).exec (ε := Empty)
      (oneFrame storedData ⟨1, Page.new .btreeLeaf, 0, false, true⟩) =
      (.ok none, oneFrame storedData ⟨2, Page.new .data, 1, false, true⟩) := rfl
  have h₇ : PlainStep c₆ (.fetch 2, none) c₇ := ⟨trivial, _, hevict, rfl⟩
  have h₈ : PlainStep c₇ (.unpin 2 false, none) c₈ := ⟨trivial, _, rfl, rfl⟩
  have hagain : (PoolCall.fetch 1).exec (ε := Empty)
      (oneFrame storedData ⟨2, Page.new .data, 0, false, true⟩) =
      (.ok none, oneFrame storedData ⟨1, Page.new .data, 1, false, true⟩) := rfl
  have h₉ : PlainStep c₈ (.fetch 1, none) c₉ := ⟨trivial, _, hagain, rfl⟩
  have h₁₀ : PlainStep c₉ (.unpin 1 true, none) c₁₀ := ⟨trivial, _, rfl, rfl⟩
  have hrun := (((((((Run.nil.snoc h₁).snoc h₂).snoc h₃).snoc h₄).snoc h₅).snoc h₆).snoc h₇).snoc h₈
  exact ⟨_, c₈, c₉, c₁₀, hrun, h₉, h₁₀, rfl, rfl, rfl, rfl, leaf_ne_data⟩

end Transparency
end Sietch
