import Silkware.Premap

/-!
The window at `page_tmp`.

`kvirt2phys` moves one page of the kernel over the tables on the way of an address, and so edits
the tree it reads. As long as the path to `page_tmp` itself is in the image, each move writes
one page-table entry, and always the same one.
-/

namespace Silkware.Window

open Silkware.Kern Silkware.Radix Silkware.Paging Silkware.Outcome Silkware.PageTables
open Silkware.MapLoop Silkware.Premap

variable {K : Image} {s : St} {f₀ f g r t v x : ℕ} {i : Fin 512} {q : List (Fin 512)}

/-- The window is mapped, through tables of the image; `f₀` is the frame of its page table. -/
structure Open (K : Image) (s : St) (f₀ : ℕ) : Prop where
  tree : IsTree (entry s.mem) next K.root 3
  tabs : ∀ q f, q <+: path K.pageTmp → table s.mem K.root q = some f → Mine K f
  last : table s.mem K.root (path K.pageTmp) = some f₀

/-- The window moved to a frame. -/
def moved (K : Image) (s : St) (f₀ g : ℕ) : St :=
  setEntry s f₀ (index 0 K.pageTmp) (leafEntry (g * 0x1000) (pagePresent ||| pageWritable))

lemma moved_moved (s : St) (f₀ g g' : ℕ) : moved K (moved K s f₀ g) f₀ g' = moved K s f₀ g' := by
  simp only [moved, setEntry, setWord, St.mk.injEq, and_true]
  funext b
  split <;> rfl

/-! ### Moving it -/

section

variable {w : Walker}

lemma descend_present (hw : w.get (g * 0x1000) s = .ok x) (hat : At K s t f)
    (hn : next (entry s.mem f i) = some g) : descend K w t i s = .ok (x, s) := by
  obtain ⟨hp, he⟩ := next_eq_some hn
  simp only [descend, tableEntry, hat.load i, bind, Except.bind, hp, if_true, pure, Except.pure,
    he, hw]

/-- Where the way of a page is there, and in the image, its entry is written and nothing else. -/
lemma mapPage_present {f₁ f₂ f₃ flags src : ℕ}
    (hw : ∀ f, Mine K f → w.get (f * 0x1000) s = .ok (K.physk2vk (f * 0x1000)))
    (hway : Way s.mem K.root v f₁ f₂ f₃) (h1 : Mine K f₁) (h2 : Mine K f₂) (h3 : Mine K f₃) :
    Paging.mapPage K w K.kpml4 flags v src s =
      .ok (setEntry s f₃ (index 0 v) (leafEntry src flags)) := by
  simp only [Paging.mapPage, descend_present (hw f₁ h1) at_kpml4 hway.next₁,
    descend_present (hw f₂ h2) h1.at hway.next₂, descend_present (hw f₃ h3) h2.at hway.next₃, bind,
    Except.bind, h3.at.store, leafEntry]

end

lemma Open.mapPage (h : Open K s f₀) (flags src : ℕ) :
    mapPage K (premapWalker K) K.kpml4 flags K.pageTmp src s =
      .ok (setEntry s f₀ (index 0 K.pageTmp) (leafEntry src flags)) := by
  obtain ⟨f₁, f₂, hw⟩ := exists_way h.last
  exact mapPage_present (fun _ _ => rfl) hw (h.tabs _ _ (by simp [path]) hw.one)
    (h.tabs _ _ (by simp [path]) hw.two) (h.tabs _ _ (List.prefix_refl _) hw.three)

lemma Open.mapPageTmp (h : Open K s f₀) (hg : g * 0x1000 < 2 ^ 63) :
    mapPageTmp K (g * 0x1000) s = .ok (moved K s f₀ g) := by
  have ha := K.aligned.2
  have he := K.virtual_end
  have hd : roundUpPage ((K.pageTmp + pageSize) % 2 ^ 64) = K.pageTmp + 0x1000 := by
    unfold roundUpPage floorPage pageSize
    omega
  have hs : roundUpPage ((g * 0x1000 + pageSize) % 2 ^ 64) = g * 0x1000 + 0x1000 := by
    unfold roundUpPage floorPage pageSize
    omega
  have hfuel : (K.pageTmp + 0x1000 - K.pageTmp) / pageSize + 1 = 2 := by
    rw [Nat.add_sub_cancel_left]
    rfl
  have hnext : (K.pageTmp + pageSize) % 2 ^ 64 = K.pageTmp + 0x1000 := by unfold pageSize; omega
  rw [Paging.mapPageTmp, premapPages, mapRange, hd, hs, hfuel, mapLoop, if_pos (by omega),
    h.mapPage, hnext]
  simp only [bind, Except.bind, mapLoop]
  rw [if_neg (by omega)]
  rfl

lemma walk_moved (h : Open K s f₀) (hq : q.length ≤ 3) :
    table (moved K s f₀ g).mem K.root q = table s.mem K.root q := by
  rw [table, moved, entry_setEntry]
  exact h.tree.walk_put rfl h.last hq

lemma Open.moved (h : Open K s f₀) (g : ℕ) : Open K (moved K s f₀ g) f₀ := by
  refine ⟨h.tree.congr fun q hq => walk_moved h hq, fun q f hq hf => ?_, ?_⟩
  · rw [walk_moved h hq.length_le] at hf
    exact h.tabs q f hq hf
  · rw [walk_moved h (by simp [path])]
    exact h.last

/-- Pages other than the window keep their entries. -/
lemma leaf_moved (h : Open K s f₀) (hv : vpage v ≠ vpage K.pageTmp) :
    leaf (moved K s f₀ g).mem K.root v = leaf s.mem K.root v := by
  rw [moved, leaf_put h.tree h.last, if_neg hv]

/-- The window shows the frame it was moved to. -/
lemma at_moved (h : Open K s f₀) (hg : g * 0x1000 < 2 ^ 63) :
    At K (moved K s f₀ g) K.pageTmp g := by
  refine at_of_leaf (e := leafEntry (g * 0x1000) (pagePresent ||| pageWritable)) K.aligned.2 ?_ ?_ ?_ ?_
  · rintro v h1 h2 ⟨-, -, h3⟩
    exact h3 ⟨h1, h2⟩
  · rw [moved, leaf_put h.tree h.last, if_pos rfl]
  · rw [(leafEntry_flags _ _).present]
    decide
  · rw [leafEntry_frame]
    unfold floorPage
    omega

lemma next_lt {e : ℕ} (h : next e = some g) : g * 0x1000 < 2 ^ 63 := by
  have he := (next_eq_some h).2
  rw [and_addrMask] at he
  unfold floorPage at he
  omega

lemma windowTo_eq (h : Open K s f₀) (hat : At K s t f) (hn : next (entry s.mem f i) = some g) :
    windowTo K t i s = .ok (moved K s f₀ g) := by
  obtain ⟨hp, he⟩ := next_eq_some hn
  simp only [windowTo, hat.load i, bind, Except.bind, hp, if_true, he, h.mapPageTmp (next_lt hn)]

/-- Moving the window leaves the tables above the page tables as they are. -/
lemma entry_moved (h : Open K s f₀) (hq : q.length < 3) (hf : table s.mem K.root q = some f) :
    entry (moved K s f₀ g).mem f = entry s.mem f := by
  rw [moved, entry_setEntry, put_table]
  rintro rfl
  have := h.tree q (path K.pageTmp) f (by omega) (by simp [path]) hf h.last
  rw [this] at hq
  simp [path] at hq

/-! ### The walk through it -/

/-- The table that the walk begins at leads on from the address as `kpml4` does. -/
def Top (K : Image) (s : St) (cur : Option ℕ) (v : ℕ) : Prop :=
  ∃ r, At K s (pml4Of K cur s) r ∧
    entry s.mem r (index 3 v) = entry s.mem K.root (index 3 v)

lemma top_none (v : ℕ) : Top K s none v := ⟨K.root, at_kpml4, rfl⟩

/-- In the kernel's own space walks begin at `kpml4`. -/
lemma top_kspace {cur : Option ℕ} (hc : cur = none ∨ cur = some kspace) (ha : s.addr kspace = K.kpml4)
    (v : ℕ) : Top K s cur v := by
  rcases hc with rfl | rfl
  · exact top_none v
  · refine ⟨K.root, ?_, rfl⟩
    rw [pml4Of, ha]
    exact at_kpml4

/-- The table that the walk begins at leads from the address to the table that `kpml4` does. -/
def Leads (K : Image) (s : St) (cur : Option ℕ) (v : ℕ) : Prop :=
  ∃ r, At K s (pml4Of K cur s) r ∧
    next (entry s.mem r (index 3 v)) = next (entry s.mem K.root (index 3 v))

lemma Top.leads {cur : Option ℕ} (h : Top K s cur v) : Leads K s cur v := by
  obtain ⟨r, hr, hre⟩ := h
  exact ⟨r, hr, by rw [hre]⟩

/-- `kvirt2phys` reads what was in the tables before it began, and moves the window. -/
lemma kvirt2phys_eq {cur : Option ℕ} {e : ℕ} (h : Open K s f₀) (hlead : Leads K s cur v) (hv : v ≠ 0)
    (hne : vpage v ≠ vpage K.pageTmp) (hl : leaf s.mem K.root v = some e) :
    ∃ g, kvirt2phys K cur v s = .ok ((e &&& addrMask) ||| (v &&& 0xFFF), moved K s f₀ g) := by
  obtain ⟨f₃, hf₃, rfl⟩ := leaf_eq_some hl
  obtain ⟨f₁, f₂, hw⟩ := exists_way hf₃
  obtain ⟨r, hr, hre⟩ := hlead
  have hn₁ : next (entry s.mem r (index 3 v)) = some f₁ := by rw [hre, hw.next₁]
  have w1 := windowTo_eq h hr hn₁
  have w2 := windowTo_eq (h.moved f₁) (at_moved h (next_lt hw.next₁))
    (i := index 2 v) (g := f₂) (by rw [entry_moved h (by simp) hw.one, hw.next₂])
  have w3 := windowTo_eq (h.moved f₂) (at_moved h (next_lt hw.next₂))
    (i := index 1 v) (g := f₃) (by rw [entry_moved h (by simp) hw.two, hw.next₃])
  rw [moved_moved] at w2 w3
  have hlast : entry (moved K s f₀ f₃).mem f₃ (index 0 v) = entry s.mem f₃ (index 0 v) := by
    have h1 := leaf_of_table (m := (moved K s f₀ f₃).mem) ((walk_moved h (by simp [path])).trans hf₃)
    rw [leaf_moved h hne, leaf_of_table hf₃, Option.some.injEq] at h1
    exact h1.symm
  have hload := (at_moved h (next_lt hw.next₃)).load (index 0 v)
  rw [hlast] at hload
  refine ⟨f₃, ?_⟩
  simp only [kvirt2phys, if_neg hv, w1, w2, w3, hload, bind, Except.bind, pure, Except.pure]

/-- The walk that `premap_pages` makes, to the page-table entry of an address. -/
def direct (K : Image) (v : ℕ) (s : St) : Except Stop ℕ := do
  let e₁ ← load K s (K.kpml4 + 8 * index 3 v)
  let e₂ ← load K s (K.physk2vk (e₁ &&& addrMask) + 8 * index 2 v)
  let e₃ ← load K s (K.physk2vk (e₂ &&& addrMask) + 8 * index 1 v)
  load K s (K.physk2vk (e₃ &&& addrMask) + 8 * index 0 v)

lemma direct_eq {e : ℕ} (htabs : ∀ q f, q.length ≤ 3 → table s.mem K.root q = some f → Mine K f)
    (hl : leaf s.mem K.root v = some e) : direct K v s = .ok e := by
  obtain ⟨f₃, hf₃, rfl⟩ := leaf_eq_some hl
  obtain ⟨f₁, f₂, hw⟩ := exists_way hf₃
  have h1 := htabs _ _ (by simp) hw.one
  have h2 := htabs _ _ (by simp) hw.two
  have h3 := htabs _ _ (by simp [path]) hw.three
  simp only [direct, at_kpml4.load, (next_eq_some hw.next₁).2, h1.at.load, (next_eq_some hw.next₂).2,
    h2.at.load, (next_eq_some hw.next₃).2, h3.at.load, bind, Except.bind]

/-- **The walk through the window is the direct walk**, and it leaves the translation of every
page but the window's as it was. -/
theorem window_walk {s₀ : St} (hb : Boot K s₀) (hs : Built K s₀ s)
    (htmp : (leaf s.mem K.root K.pageTmp).isSome) (hv : v ≠ 0) (hne : vpage v ≠ vpage K.pageTmp)
    (hup : (leaf s.mem K.root v).isSome) :
    ∃ e s', direct K v s = .ok e ∧
      kvirt2phys K none v s = .ok ((e &&& addrMask) ||| (v &&& 0xFFF), s') ∧
      ∀ u, vpage u ≠ vpage K.pageTmp → leaf s'.mem K.root u = leaf s.mem K.root u := by
  have hinv := hs.inv hb
  obtain ⟨e, he⟩ := Option.isSome_iff_exists.mp hup
  obtain ⟨e₀, he₀⟩ := Option.isSome_iff_exists.mp htmp
  obtain ⟨f₀, hf₀, -⟩ := leaf_eq_some he₀
  have hopen : Open K s f₀ := ⟨hinv.tree, fun q f hq hf => hinv.tabs q f hq.length_le hf, hf₀⟩
  obtain ⟨g, hg⟩ := kvirt2phys_eq hopen (top_none v).leads hv hne he
  exact ⟨e, _, direct_eq hinv.tabs he, hg, fun u hu => leaf_moved hopen hu⟩

/-- The window and the page after it, in one page table. -/
theorem window_walk_next_page : ∃ s, premapPages onePageImage onePageImage.pageTmp 0x203000 0x2000 3
      zeroSt = .ok s ∧ ∃ e s', direct onePageImage 0xFFFFFFFF80004123 s = .ok e ∧
    kvirt2phys onePageImage none 0xFFFFFFFF80004123 s =
      .ok ((e &&& addrMask) ||| (0xFFFFFFFF80004123 &&& 0xFFF), s') ∧
    ∀ u, vpage u ≠ vpage onePageImage.pageTmp →
      leaf s'.mem onePageImage.root u = leaf s.mem onePageImage.root u := by
  have hz : (premapPages onePageImage onePageImage.pageTmp 0x203000 0x2000 3 zeroSt).map (fun s =>
      ((leaf s.mem onePageImage.root onePageImage.pageTmp).isSome,
        (leaf s.mem onePageImage.root 0xFFFFFFFF80004123).isSome)) = .ok (true, true) := by
    decide
  obtain ⟨s, hs, hz⟩ := exists_of_map hz
  rw [Prod.mk.injEq] at hz
  exact ⟨s, hs, window_walk zeroSt_boot (.call .boot hs) hz.1 (by decide) (by decide) hz.2⟩

end Silkware.Window
