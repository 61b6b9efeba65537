import Sietch.Base.Proc
import Sietch.Base.SortedMap
import Sietch.PageSpec

/-! The contract between the buffer pool and what makes pages durable, the in-memory
page store, and what a page store stands for: a map from page ids to page contents
and the next free id. -/
namespace Sietch

/-- `u64`. -/
abbrev PageId := Nat

class PageStore (S : Type) (ε : outParam Type) where
  readPage : S → PageId → Outcome ε (Option Page)
  writePage : PageId → Page → Proc S ε Unit
  allocatePageId : Proc S ε PageId

structure MemPageStore where
  pages : SortedMap PageId Page
  nextId : PageId

namespace MemPageStore

def new : MemPageStore := ⟨.empty, 1⟩

def readPage (s : MemPageStore) (id : PageId) : Outcome Empty (Option Page) :=
  .ok (s.pages.get? id)

def writePage (id : PageId) (page : Page) : Proc MemPageStore Empty Unit := fun s =>
  (.ok (), { s with pages := s.pages.insert id page })

/-- The increment of the counter panics at the end of `u64`. -/
def allocatePageId : Proc MemPageStore Empty PageId := fun s =>
  if s.nextId + 1 < 2 ^ 64 then (.ok s.nextId, { s with nextId := s.nextId + 1 })
  else (.panic, s)

instance : PageStore MemPageStore Empty where
  readPage := readPage
  writePage := writePage
  allocatePageId := allocatePageId

end MemPageStore

/-- How a page store is seen as a map of contents: `Shows` says what a page is read as,
`Rep` what the store holds, `Writable` which ids it can hold. `β` is what else is known of
the store. -/
structure StoreView (S O β : Type) where
  Shows : Page → O → Prop
  blank : PageType → O
  Writable : PageId → Prop
  Rep : S → (PageId → Option O) → β → Prop

/-- What the calls of a store do to its view. A call may fail or halt, depending on what is
known of the store, and a write may use some of that up. -/
structure StoreModel (S : Type) {ε : Type} [PageStore S ε] (O β : Type) extends
    StoreView S O β where
  Fails : β → Prop
  Halts : β → Prop
  spend : β → β
  shows_new : ∀ t, Shows (Page.new t) (blank t)
  weaken : ∀ {s view b}, Rep s view b → Rep s view (spend b)
  read : ∀ {s view b}, Rep s view b → ∀ {id}, Writable id →
    (∃ page, PageStore.readPage s id = .ok page ∧
      Shows (page.getD (Page.new .data)) ((view id).getD (blank .data))) ∨
    ∃ e, PageStore.readPage s id = .err e ∧ Fails b
  write : ∀ {s view b}, Rep s view b → ∀ {id page o}, Shows page o → Writable id →
    Proc.Ends (PageStore.writePage id page) s
      (fun _ s' => Rep s' (Function.update view id (some o)) (spend b))
      (fun s' => Rep s' view b ∧ Fails b) (Halts b)

/-- A store that allocates its ids in order and never returns an error: it is known which
id is next, and a number of writes before the first that may run into the end of a
counter. -/
structure NumberedStore (S : Type) {ε : Type} [PageStore S ε] (O : Type) extends
    StoreView S O (Nat × Nat) where
  shows_new : ∀ t, Shows (Page.new t) (blank t)
  writable : ∀ {s view next room}, Rep s view (next, room) → ∀ id < next, Writable id
  weaken : ∀ {s view next room room'}, room' ≤ room → Rep s view (next, room) →
    Rep s view (next, room')
  read : ∀ {s view next room}, Rep s view (next, room) → ∀ {id}, Writable id → ∃ page,
    PageStore.readPage s id = .ok page ∧
      Shows (page.getD (Page.new .data)) ((view id).getD (blank .data))
  write : ∀ {s view next room}, Rep s view (next, room) → ∀ {id page o}, Shows page o →
    Writable id → Proc.Ends (PageStore.writePage id page) s
      (fun _ s' => Rep s' (Function.update view id (some o)) (next, room - 1))
      (fun _ => False) (room = 0)
  allocate : ∀ {s view next room}, Rep s view (next, room) →
    Proc.Ends PageStore.allocatePageId s
      (fun id s' => id = next ∧ next + 1 < 2 ^ 64 ∧ Rep s' view (next + 1, room))
      (fun _ => False) (2 ^ 64 ≤ next + 1)

/-- The store has room for a number of writes. -/
def NumberedStore.Roomy {S ε O : Type} [PageStore S ε] (M : NumberedStore S O) (s : S)
    (room : Nat) : Prop := ∀ {view next}, M.Rep s view (next, 0) → M.Rep s view (next, room)

def NumberedStore.toModel {S ε O : Type} [PageStore S ε] (M : NumberedStore S O) :
    StoreModel S O (Nat × Nat) where
  toStoreView := M.toStoreView
  Fails _ := False
  Halts b := b.2 = 0
  spend b := (b.1, b.2 - 1)
  shows_new := M.shows_new
  weaken h := M.weaken (Nat.sub_le _ _) h
  read h _ hid := .inl (M.read h hid)
  write h _ _ _ hshow hid := (M.write h hshow hid).mono (fun _ _ hQ => hQ)
    (fun _ hfalse => hfalse.elim) (fun hroom => hroom)

/-- Pages in memory are kept as they are, and writes never fail. -/
def MemPageStore.numbered {O : Type} (Shows : Page → O → Prop) (blank : PageType → O)
    (hnew : ∀ t, Shows (Page.new t) (blank t)) : NumberedStore MemPageStore O where
  Shows := Shows
  blank := blank
  Writable _ := True
  Rep s view budget := s.nextId = budget.1 ∧ ∀ id, Option.Rel Shows (s.pages.get? id) (view id)
  shows_new := hnew
  writable _ _ _ := trivial
  weaken _ h := h
  read := by
    rintro s view next _ ⟨-, hpages⟩ id -
    refine ⟨_, rfl, ?_⟩
    have hid := hpages id
    cases hp : s.pages.get? id <;> cases hv : view id <;> rw [hp, hv] at hid
    · exact hnew .data
    · cases hid
    · cases hid
    · cases hid with
      | some h => exact h
  write := by
    rintro s view next _ ⟨hnext, hpages⟩ id page o hshow -
    exact ⟨hnext, SortedMap.rel_update hpages (fun _ _ h => h) (SortedMap.get?_insert _ _ _)
      (.some hshow)⟩
  allocate := by
    rintro s view next _ ⟨hnext, hpages⟩
    simp only at hnext
    subst hnext
    show Proc.Ends MemPageStore.allocatePageId s _ _ _
    rw [Proc.Ends, MemPageStore.allocatePageId]
    by_cases hlt : s.nextId + 1 < 2 ^ 64
    · rw [if_pos hlt]
      exact ⟨rfl, hlt, rfl, hpages⟩
    · rw [if_neg hlt]
      exact not_lt.mp hlt

end Sietch
