import Silkware.AnonRuns

/-!
The two walkers of the kernel's tables.

`premap_pages` reaches a table at `PHYSK2VK` of its address, `map_pages` asks the map of the
space first. The two agree as long as every table of the kernel is in its image, that is, until
`map_anon` has to make one.
-/

namespace Silkware.Walkers

open Silkware.Kern Silkware.Radix Silkware.HashMap Silkware.HashMapRuns Silkware.Paging
open Silkware.Outcome Silkware.PageTables Silkware.MapLoop Silkware.Premap Silkware.Window
open Silkware.AnonRuns

variable {K : Image} {s s' : St} {f v : ℕ}

inductive Op
  | premapAnon (phys len flags : ℕ)
  | mapAnon (phys len flags : ℕ) (supply : List Block)
  | unmapPages (virt len : ℕ)

def exec (K : Image) : Op → St → Except Stop St
  | .premapAnon phys len flags, s => (premapAnon K phys len flags s).map (·.2)
  | .mapAnon phys len flags bs, s => (mapAnon K phys len flags { s with supply := bs }).map (·.2)
  | .unmapPages virt len, s => unmapPages K virt len s

def run (K : Image) (ops : List Op) (s : St) : Except Stop St := ops.foldlM (fun s op => exec K op s) s

/-- `map_anon` finds the tables of all its pages in place. -/
def Finds (K : Image) (s : St) : Op → Prop
  | .mapAnon phys len _ _ => ∀ k < turns s.endPos (floorPage phys) len,
      (leaf s.mem K.root (s.endPos + k * 0x1000)).isSome
  | _ => True

def AllFind (K : Image) : St → List Op → Prop
  | _, [] => True
  | s, op :: ops => Finds K s op ∧ ∀ s', exec K op s = .ok s' → AllFind K s' ops

/-- Every present entry above the page tables leads both walkers to the same address. -/
def Agree (K : Image) (s : St) : Prop :=
  ∀ q f i, q.length < 3 → table s.mem K.root q = some f → present (entry s.mem f i) = true →
    tabGet K kspace (entry s.mem f i &&& addrMask) s = .ok (K.physk2vk (entry s.mem f i &&& addrMask))

/-- All tables are the image's, and the map of `kspace` is empty. -/
structure OwnOnly (K : Image) (s : St) : Prop where
  inv : KInv K (Own K) s s
  cur : s.cur = none ∨ s.cur = some kspace
  addr : s.addr kspace = K.kpml4
  physmap : s.physmap kspace = some (mapNew 0x10)

lemma tabGet_empty (h : s.physmap kspace = some (mapNew 0x10)) (a : ℕ) :
    tabGet K kspace a s = .ok (K.physk2vk a) := by
  simp only [tabGet, h, (Rep.new 0x10).get, bind, Except.bind, if_true]
  rfl

lemma OwnOnly.agree (h : OwnOnly K s) : Agree K s := fun _ _ _ _ _ _ => tabGet_empty h.physmap _

lemma OwnOnly.of_kinv (h : OwnOnly K s) (hk : KInv K (Own K) s s') (e : ℕ) :
    OwnOnly K { s' with endPos := e } := by
  have hr := hk.rest
  exact ⟨hk.of_eq rfl rfl, by rw [hr]; exact h.cur, by rw [hr]; exact h.addr,
    by rw [hr]; exact h.physmap⟩

lemma OwnOnly.premap (h : OwnOnly K s) (dst src length flags : ℕ) :
    OrStops .panic (premapPages K dst src length flags s) fun s' => KInv K (Own K) s s' :=
  (premapPages_spec _ _ _ _ (fun _ _ h => h) h.inv fun _ _ => on_own _).mono fun _ h' => h'.1

/-- Where all tables are in place, `map_pages` makes none. -/
lemma OwnOnly.mapRange (h : OwnOnly K s) (dst src length flags : ℕ)
    (hin : ∀ k < turns dst src length, (leaf s.mem K.root (dst + k * 0x1000)).isSome) :
    OrStops .panic (mapRange K (spaceWalker K kspace) K.kpml4 dst src length flags s)
      fun s' => KInv K (Own K) s s' := by
  refine (mapRange_rule (fun _ s₁ => KInv K (Own K) s s₁ ∧ ∀ j < turns dst src length,
    (leaf s₁.mem K.root (dst + j * 0x1000)).isSome) ?_ ⟨h.inv, hin⟩).mono fun _ h' => h'.1
  rintro k hk s₁ ⟨hinv, hsome⟩
  obtain ⟨e, he⟩ := Option.isSome_iff_exists.mp (hsome k hk)
  obtain ⟨f₃, hf₃, -⟩ := leaf_eq_some he
  obtain ⟨f₁, f₂, hway⟩ := exists_way hf₃
  have hget : ∀ f, Mine K f → (spaceWalker K kspace).get (f * 0x1000) s₁ = .ok (K.physk2vk (f * 0x1000)) := by
    intro f _
    refine tabGet_empty ?_ _
    rw [hinv.rest]
    exact h.physmap
  rw [mapPage_present hget hway (hinv.tabs _ _ (by simp) hway.one)
    (hinv.tabs _ _ (by simp) hway.two) (hinv.tabs _ _ (by simp [path]) hf₃)]
  refine OrStops.ok ⟨(premapWalker_law fun _ _ h => h).put hinv (on_own _)
    ⟨hinv.tabs _ _ (by simp [path]) hf₃, rfl⟩ hf₃, fun j hj => ?_⟩
  rw [leaf_put hinv.tree hf₃]
  split
  · rfl
  · exact hsome j hj

lemma exec_own {op : Op} (h : OwnOnly K s) (hf : Finds K s op) :
    OrStops .panic (exec K op s) (OwnOnly K) := by
  cases op with
  | premapAnon phys len flags =>
    simp only [exec, premapAnon]
    rcases h.premap s.endPos (floorPage phys) len flags with
      hp | ⟨s₁, hp, hk⟩
    · rw [hp]; exact OrStops.stop
    · rw [hp]; exact OrStops.ok (h.of_kinv hk _)
  | mapAnon phys len flags bs =>
    have h' : OwnOnly K { s with supply := bs } := ⟨h.inv.of_eq rfl rfl, h.cur, h.addr, h.physmap⟩
    have hcur : s.cur.getD kspace = kspace := by
      rcases h.cur with hc | hc <;> rw [hc] <;> rfl
    simp only [exec, mapAnon, mapPages, hcur, h.addr]
    rcases h'.mapRange s.endPos (floorPage phys) len flags hf with
      hp | ⟨s₁, hp, hk⟩
    · rw [hp]; exact OrStops.stop
    · rw [hp]; exact OrStops.ok (h'.of_kinv hk _)
  | unmapPages virt len =>
    simp only [exec, unmapPages]
    exact (h.premap _ _ _ _).mono fun s₁ hk => h.of_kinv hk s₁.endPos

lemma run_own {ops : List Op} (h : OwnOnly K s) (hf : AllFind K s ops) :
    OrStops .panic (run K ops s) (OwnOnly K) := by
  induction ops generalizing s with
  | nil => exact OrStops.ok h
  | cons op ops ih =>
    rw [run, List.foldlM_cons]
    rcases exec_own h hf.1 with hst | ⟨s₁, hex, h₁⟩
    · rw [hst]; exact OrStops.stop
    · rw [hex]; exact ih h₁ (hf.2 s₁ hex)

/-- **The two walkers agree** in every state reached by calls that never have to make a table
for `map_anon`. -/
theorem walkers_agree (h : Started K s) {ops : List Op} (hf : AllFind K s ops)
    (hr : run K ops s = .ok s') : Agree K s' :=
  ((run_own ⟨h.inv, h.cur, h.addr, h.physmap⟩ hf).of_ok hr).agree

/-- A mapping in the last page of the page table, and its end. -/
def oldTableOps : List Op := [.mapAnon 0x400800 0x100 3 [], .unmapPages 0xFFFFFFFF801FF800 0x100]

theorem walkers_agree_border : ∃ s s', Started borderImage s ∧
    run borderImage oldTableOps s = .ok s' ∧ Agree borderImage s' := by
  have hz : (premapPages borderImage borderImage.pageTmp 0x39A000 0x1000 3 borderSt).bind (fun s =>
      (run borderImage oldTableOps s).map fun _ =>
        (s.endPos, (leaf s.mem borderImage.root 0xFFFFFFFF801FF000).isSome)) =
        .ok (0xFFFFFFFF801FF000, true) := by
    decide
  obtain ⟨s, hs, hz⟩ := exists_of_bind hz
  obtain ⟨s', hr, hz⟩ := exists_of_map hz
  rw [Prod.mk.injEq] at hz
  have hfind : AllFind borderImage s oldTableOps := by
    refine ⟨fun k hk => ?_, fun _ _ => ⟨trivial, fun _ _ => trivial⟩⟩
    have ht : turns 0xFFFFFFFF801FF000 (floorPage 0x400800) 0x100 = 1 := by decide
    rw [hz.1, ht] at hk
    obtain rfl : k = 0 := by omega
    rw [hz.1]
    exact hz.2
  exact ⟨s, s', border_started hs, hr, walkers_agree (border_started hs) hfind hr⟩

/-- A page for the pools, and a mapping that needs a new page table. -/
def newTableOps : List Op := [.premapAnon 0x400000 0x1000 3,
  .mapAnon 0x500000 0x1000 3 [⟨0xFFFFFFFF801FF000, fun _ => 0⟩]]

/-- `map_anon` takes a page of the pools for its table; `PHYSK2VK` of its address is another
page. -/
theorem pool_table_differs : ∃ s s', Started borderImage s ∧
    run borderImage newTableOps s = .ok s' ∧ ¬ Agree borderImage s' := by
  have hz : (premapPages borderImage borderImage.pageTmp 0x39A000 0x1000 3 borderSt).bind (fun s =>
      (run borderImage newTableOps s).map fun s' =>
        (table s'.mem borderImage.root [511, 510], entry s'.mem 0x39C 1,
          tabGet borderImage kspace 0x400000 s')) =
        .ok (some 0x39C, 0x400007, .ok 0xFFFFFFFF801FF000) := by
    decide
  obtain ⟨s, hs, hz⟩ := exists_of_bind hz
  obtain ⟨s', hr, hz⟩ := exists_of_map hz
  rw [Prod.mk.injEq, Prod.mk.injEq] at hz
  obtain ⟨h1, h2, h3⟩ := hz
  refine ⟨s, s', border_started hs, hr, fun hA => ?_⟩
  have := hA [511, 510] 0x39C 1 (by decide) h1 (by rw [h2]; decide)
  rw [h2, show 0x400007 &&& addrMask = 0x400000 by decide, h3, Except.ok.injEq] at this
  exact absurd this (by decide)

end Silkware.Walkers
