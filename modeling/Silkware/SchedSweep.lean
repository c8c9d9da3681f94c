import Silkware.SchedRuns

/-!
One sweep of a CPU: what `proc_next` runs between two changes of the active and the inactive
queue, with processes coming and going meanwhile.

While a sweep lasts, the active queue only gets shorter: `proc_next` takes its first node off,
`unschedule` may take one out, and everything else goes to the inactive queue.
-/

namespace Silkware.SchedSweep

open Silkware.Kern Silkware.Links Silkware.Fifo Silkware.Sched Silkware.SchedInv
open Silkware.SchedRuns

/-- The nodes of a queue, priority by priority. -/
def order (A : Prio → List ℕ) : List ℕ := (List.finRange nPrior).flatMap A

/-- The nodes that `proc_next` ran on the CPU. -/
def chosen (c : ℕ) : List Ev → List ℕ
  | [] => []
  | .next d b _ :: evs => if d = c then b :: chosen c evs else chosen c evs
  | _ :: evs => chosen c evs

inductive Trace (ncpus : ℕ) : Sys → List Ev → Sys → Prop
  | nil {s : Sys} : Trace ncpus s [] s
  | cons {s s' s'' : Sys} {ev : Ev} {evs : List Ev} (h : Step ncpus s ev s')
      (t : Trace ncpus s' evs s'') : Trace ncpus s (ev :: evs) s''

/-- What one sweep over the nodes `A` of the active queue runs. -/
structure Fair (c : ℕ) (A : Prio → List ℕ) (evs : List Ev) : Prop where
  only : ∀ b ∈ chosen c evs, b ∈ order A
  turn : ∀ b ∈ order A, (chosen c evs).count b = 1 ∨
    ∃ t₁ pid t₂, evs = t₁ ++ .unschedule c pid b :: t₂ ∧ b ∉ chosen c t₁
  gone : ∀ b ∈ order A, ∀ t₁ pid t₂, evs = t₁ ++ .unschedule c pid b :: t₂ → b ∉ chosen c t₁ →
    b ∉ chosen c evs
  late : ∀ b t₁ pid i t₂, evs = t₁ ++ .schedule b pid i :: t₂ → b ∉ chosen c t₂
  prio : (chosen c evs).Pairwise fun a b => ∀ i j, a ∈ A i → b ∈ A j → i ≤ j
  fifo : ∀ i, ((chosen c evs).filter (· ∈ A i)).Sublist (A i)

/-! ### The order of a queue -/

variable {A A' : Prio → List ℕ} {i : Prio} {b : ℕ} {l : List ℕ}

lemma mem_order : b ∈ order A ↔ ∃ i, b ∈ A i := by
  simp [order, List.mem_flatMap]

/-- The priorities in order, around one of them. -/
lemma finRange_split (i : Prio) : ∃ is₁ is₂, List.finRange nPrior = is₁ ++ i :: is₂ ∧
    (∀ j ∈ is₁, j < i) ∧ ∀ j ∈ is₂, i < j := by
  obtain ⟨is₁, is₂, h⟩ := List.append_of_mem (List.mem_finRange i)
  have hs : (List.finRange nPrior).Pairwise (· < ·) := List.pairwise_lt_finRange _
  rw [h, List.pairwise_append] at hs
  exact ⟨is₁, is₂, h, fun j hj => hs.2.2 j hj i (by simp), (List.pairwise_cons.mp hs.2.1).1⟩

/-- A queue that differs at one priority. -/
lemma order_split (h : ∀ j, j ≠ i → A' j = A j) :
    ∃ l₁ l₂, order A = l₁ ++ A i ++ l₂ ∧ order A' = l₁ ++ A' i ++ l₂ ∧
      ((∀ j < i, A j = []) → l₁ = []) := by
  obtain ⟨is₁, is₂, he, hlt, hgt⟩ := finRange_split i
  have h1 : is₁.flatMap A' = is₁.flatMap A :=
    List.flatMap_congr fun j hj => h j (ne_of_lt (hlt j hj))
  have h2 : is₂.flatMap A' = is₂.flatMap A :=
    List.flatMap_congr fun j hj => h j (ne_of_gt (hgt j hj))
  refine ⟨is₁.flatMap A, is₂.flatMap A, ?_, ?_, fun hlow => ?_⟩
  · rw [order, he, List.flatMap_append, List.flatMap_cons, List.append_assoc]
  · rw [order, he, List.flatMap_append, List.flatMap_cons, List.append_assoc, h1, h2]
  · exact List.flatMap_eq_nil_iff.mpr fun j hj => hlow j (hlt j hj)

/-- Taking the first node off. -/
lemma order_pop (h : ∀ j, j ≠ i → A' j = A j) (hlow : ∀ j < i, A j = []) (hi : A i = b :: l)
    (hi' : A' i = l) : order A = b :: order A' := by
  obtain ⟨l₁, l₂, h1, h2, h3⟩ := order_split h
  rw [h1, h2, h3 hlow, hi, hi']
  rfl

/-- Cutting a node out. -/
lemma order_cut {l1 l2 : List ℕ} (h : ∀ j, j ≠ i → A' j = A j) (hi : A i = l1 ++ b :: l2)
    (hi' : A' i = l1 ++ l2) :
    (order A').Sublist (order A) ∧ ∀ x ∈ order A, x = b ∨ x ∈ order A' := by
  obtain ⟨l₁, l₂, h1, h2, -⟩ := order_split h
  rw [h1, h2, hi, hi']
  constructor
  · exact ((List.Sublist.refl l₁).append
      ((List.Sublist.refl l1).append (List.sublist_cons_self b l2))).append (List.Sublist.refl l₂)
  · intro x hx
    simp only [List.mem_append, List.mem_cons] at hx ⊢
    tauto

section

variable (hd : ∀ b i j, b ∈ A i → b ∈ A j → i = j)
include hd

lemma order_nodup (hn : ∀ i, (A i).Nodup) : (order A).Nodup := by
  refine List.pairwise_flatMap.mpr ⟨fun i _ => hn i, ?_⟩
  refine (List.pairwise_lt_finRange nPrior).imp fun {i j} hij x hx y hy hxy => ?_
  exact absurd (hd x i j hx (hxy ▸ hy)) (ne_of_lt hij)

lemma order_prio : (order A).Pairwise fun a b => ∀ i j, a ∈ A i → b ∈ A j → i ≤ j := by
  refine List.pairwise_flatMap.mpr ⟨fun i _ => ?_, ?_⟩
  · refine List.pairwise_of_forall_mem_list fun a ha b hb j k hj hk => ?_
    rw [hd a j i hj ha, hd b k i hk hb]
  · refine (List.pairwise_lt_finRange nPrior).imp fun {i j} hij x hx y hy i' j' hx' hy' => ?_
    rw [hd x i' i hx' hx, hd y j' j hy' hy]
    exact le_of_lt hij

lemma order_filter (i : Prio) : (order A).filter (· ∈ A i) = A i := by
  obtain ⟨l₁, l₂, h1, h2, -⟩ := order_split (A := A) (i := i)
    fun j hj => show (if j = i then [] else A j) = A j by simp [hj]
  have hno : ∀ x ∈ l₁ ++ l₂, x ∉ A i := by
    intro x hx hxi
    have hx' : x ∈ order fun j => if j = i then [] else A j := by
      rw [h2]
      simpa using hx
    obtain ⟨j, hj⟩ := mem_order.mp hx'
    by_cases hji : j = i
    · simp [hji] at hj
    · rw [if_neg hji] at hj
      exact hji (hd x j i hj hxi)
  have h₁ : l₁.filter (· ∈ A i) = [] :=
    List.filter_eq_nil_iff.mpr fun x hx => by simpa using hno x (by simp [hx])
  have h₂ : l₂.filter (· ∈ A i) = [] :=
    List.filter_eq_nil_iff.mpr fun x hx => by simpa using hno x (by simp [hx])
  have h₃ : (A i).filter (· ∈ A i) = A i := List.filter_eq_self.mpr fun x hx => by simpa using hx
  rw [h1, List.filter_append, List.filter_append, h₁, h₂, h₃]
  simp

end

/-! ### One step of a sweep -/

variable {ncpus c : ℕ} {s s' : Sys} {L L' : Lists} {ev : Ev} {evs : List Ev}

/-- The active queue of the CPU. -/
def activeOf (s : Sys) (L : Lists) (c : ℕ) : Prio → List ℕ := L (s.st.cpu c).active

/-- A step that does not touch the active queue of the CPU. -/
lemma activeOf_same (hc : (s'.st.cpu c).active = (s.st.cpu c).active)
    (h : ∀ i, L' (s.st.cpu c).active i = L (s.st.cpu c).active i) :
    activeOf s' L' c = activeOf s L c := by
  funext i
  rw [activeOf, activeOf, hc, h i]

/-- In a step without a change of the queues, the nodes that are run and those that stay on the
active queue were on it in this order, and only `unschedule` takes nodes away. -/
lemma sweep_step (h : Inv s L) (hs : LStep ncpus s L ev s' L') (hno : ∀ b, ev ≠ .next c b true) :
    (chosen c [ev] ++ order (activeOf s' L' c)).Sublist (order (activeOf s L c)) ∧
      ∀ b ∈ order (activeOf s L c), b ∈ chosen c [ev] ++ order (activeOf s' L' c) ∨
        ∃ pid, ev = .unschedule c pid b := by
  have hsame : chosen c [ev] = [] → activeOf s' L' c = activeOf s L c →
      (chosen c [ev] ++ order (activeOf s' L' c)).Sublist (order (activeOf s L c)) ∧
      ∀ b ∈ order (activeOf s L c), b ∈ chosen c [ev] ++ order (activeOf s' L' c) ∨
        ∃ pid, ev = .unschedule c pid b := by
    intro h1 h2
    rw [h1, h2, List.nil_append]
    exact ⟨List.Sublist.refl _, fun b hb => Or.inl hb⟩
  have hne := h.ne c
  cases hs with
  | @schedule _ d new pid i hd hnew hpid hq hp =>
    refine hsame rfl (activeOf_same (hq c).1 fun j => put_other _ _ fun hc => ?_)
    by_cases hdc : d = c
    · subst hdc
      exact hne hc.1
    · exact h.queue_ne (Ne.symm hdc) (Or.inr rfl) (Or.inl rfl) hc.1
  | @next _ d b i l hlow hl hs =>
    by_cases hd : d = c
    · subst hd
      have hpop : order (activeOf s L d) = b :: order (activeOf s'
          (move L (s.st.cpu d).active (s.st.cpu d).inactive i b l) d) := by
        refine order_pop (i := i) (fun j hj => ?_) hlow hl ?_
        · rw [activeOf, hs.cpu, move, put_other _ _ (fun hc => hj hc.2),
            put_other _ _ (fun hc => hj hc.2), activeOf]
        · rw [activeOf, hs.cpu, move, put_other _ _ (fun hc => hne hc.1), put_same]
      have hch : chosen d [.next d b false] = [b] := by simp [chosen]
      rw [hpop, hch]
      exact ⟨List.Sublist.refl _, fun x hx => Or.inl hx⟩
    · refine hsame (by simp [chosen, hd]) (activeOf_same (by rw [hs.cpu]) fun j => ?_)
      exact move_other (h.queue_ne (Ne.symm hd) (Or.inl rfl) (Or.inl rfl))
        (h.queue_ne (Ne.symm hd) (Or.inr rfl) (Or.inl rfl))
  | @swap _ d b i l hnone hlow hl hc hd' hp =>
    have hd : d ≠ c := by
      rintro rfl
      exact hno b rfl
    refine hsame (by simp [chosen, hd]) (activeOf_same (by rw [hd' c (Ne.symm hd)]) fun j => ?_)
    exact move_other (h.queue_ne (Ne.symm hd) (Or.inr rfl) (Or.inl rfl))
      (h.queue_ne (Ne.symm hd) (Or.inl rfl) (Or.inl rfl))
  | absent hq hp => exact hsame rfl (activeOf_same (hq c).1 fun _ => rfl)
  | @remove _ d pid b q i l1 l2 hb hqc hl hpid hq hp =>
    by_cases hqa : q = (s.st.cpu c).active
    · have hd : d = c := by
        by_contra hd
        exact h.queue_ne (Ne.symm hd) hqc (Or.inl hqa) rfl
      subst hd hqa
      have hother : ∀ j, j ≠ i →
          activeOf s' (put L (s.st.cpu d).active i (l1 ++ l2)) d j = activeOf s L d j := by
        intro j hj
        rw [activeOf, (hq d).1, put_other _ _ (fun hc => hj hc.2), activeOf]
      have hcut : activeOf s' (put L (s.st.cpu d).active i (l1 ++ l2)) d i = l1 ++ l2 := by
        rw [activeOf, (hq d).1, put_same]
      obtain ⟨h1, h2⟩ := order_cut (i := i) (b := b) hother hl hcut
      refine ⟨h1, fun x hx => ?_⟩
      rcases h2 x hx with rfl | hx
      · exact Or.inr ⟨pid, rfl⟩
      · exact Or.inl hx
    · exact hsame rfl (activeOf_same (hq c).1 fun j => put_other _ _ fun hc => hqa hc.1.symm)
  | other hc hp => exact hsame rfl (activeOf_same (by rw [hc]) fun _ => rfl)

lemma chosen_append (c : ℕ) (t₁ t₂ : List Ev) : chosen c (t₁ ++ t₂) = chosen c t₁ ++ chosen c t₂ := by
  induction t₁ with
  | nil => rfl
  | cons ev t₁ ih =>
    cases ev with
    | next d b w =>
      simp only [List.cons_append, chosen, ih]
      split <;> rfl
    | schedule => exact ih
    | unschedule => exact ih
    | other => exact ih

/-- The same over a sequence of steps. -/
lemma sweep (h : Inv s L) (ht : Trace ncpus s evs s') (hno : ∀ b, .next c b true ∉ evs) :
    ∃ L', Inv s' L' ∧ (chosen c evs ++ order (activeOf s' L' c)).Sublist (order (activeOf s L c)) ∧
      ∀ b ∈ order (activeOf s L c), b ∈ chosen c evs ++ order (activeOf s' L' c) ∨
        ∃ pid, .unschedule c pid b ∈ evs := by
  induction ht generalizing L with
  | nil => exact ⟨L, h, List.Sublist.refl _, fun b hb => Or.inl hb⟩
  | @cons s s₁ s' ev evs hst _ ih =>
    obtain ⟨L₁, h₁, hl⟩ := step_lists h hst
    obtain ⟨hsub, hcov⟩ := sweep_step h hl (c := c) fun b hb => hno b (by simp [hb])
    obtain ⟨L', h', hsub', hcov'⟩ := ih h₁ fun b hb => hno b (by simp [hb])
    have hch : chosen c (ev :: evs) = chosen c [ev] ++ chosen c evs := chosen_append c [ev] evs
    refine ⟨L', h', ?_, fun b hb => ?_⟩
    · rw [hch, List.append_assoc]
      exact (List.Sublist.append (List.Sublist.refl _) hsub').trans hsub
    · rw [hch, List.append_assoc]
      rcases hcov b hb with hb | ⟨pid, rfl⟩
      · rcases List.mem_append.mp hb with hb | hb
        · exact Or.inl (List.mem_append_left _ hb)
        · rcases hcov' b hb with hb | ⟨pid, hb⟩
          · exact Or.inl (List.mem_append_right _ hb)
          · exact Or.inr ⟨pid, by simp [hb]⟩
      · exact Or.inr ⟨pid, by simp⟩

lemma trace_inv (h : Inv s L) (ht : Trace ncpus s evs s') : ∃ L', Inv s' L' := by
  induction ht generalizing L with
  | nil => exact ⟨L, h⟩
  | cons hst _ ih =>
    obtain ⟨L₁, h₁, -⟩ := step_lists h hst
    exact ih h₁

lemma Trace.split {t₁ t₂ : List Ev} (h : Trace ncpus s (t₁ ++ t₂) s') :
    ∃ s₁, Trace ncpus s t₁ s₁ ∧ Trace ncpus s₁ t₂ s' := by
  induction t₁ generalizing s with
  | nil => exact ⟨s, .nil, h⟩
  | cons ev t₁ ih =>
    cases h with
    | cons hst ht =>
      obtain ⟨s₁, h1, h2⟩ := ih ht
      exact ⟨s₁, .cons hst h1, h2⟩

/-- A node that a step takes off all lists, or that it puts on an inactive one, is not run for
the rest of the sweep. -/
lemma sweep_after (h : Inv s L) {t₁ t₂ : List Ev} (ht : Trace ncpus s (t₁ ++ ev :: t₂) s')
    (hno : ∀ b, .next c b true ∉ t₁ ++ ev :: t₂)
    (hev : ∀ s₁ s₂ L₁ L₂, Inv s₁ L₁ → LStep ncpus s₁ L₁ ev s₂ L₂ → b ∉ order (activeOf s₂ L₂ c)) :
    b ∉ chosen c t₂ := by
  obtain ⟨s₁, h1, h2⟩ := ht.split
  obtain ⟨L₁, i₁, -, -⟩ := sweep h h1 (c := c) fun b hb => hno b (by simp [hb])
  cases h2 with
  | cons hst h2 =>
    obtain ⟨L₂, i₂, hl⟩ := step_lists i₁ hst
    obtain ⟨L₃, -, hsub, -⟩ := sweep i₂ h2 (c := c) fun b hb => hno b (by simp [hb])
    exact fun hb => hev _ _ L₁ L₂ i₁ hl (hsub.subset (List.mem_append_left _ hb))

/-! ### A whole sweep -/

lemma Inv.order_nodup (h : Inv s L) (q : ℕ) : (order (L q)).Nodup :=
  SchedSweep.order_nodup (fun b i j hi hj => (h.rep.one b q i q j hi hj).2)
    fun i => (h.rep.list q i).nodup

/-- The first step of a sweep changes the queues over and runs the first node. -/
lemma sweep_first {b₀ : ℕ} (hs : LStep ncpus s L (.next c b₀ true) s' L') (h : Inv s L) :
    order (L (s.st.cpu c).inactive) = b₀ :: order (activeOf s' L' c) := by
  cases hs with
  | @swap _ _ _ i l hnone hlow hl hc hd hp =>
    refine order_pop (i := i) (fun j hj => ?_) hlow hl ?_
    · rw [activeOf, hc.1, move, put_other _ _ (fun hc => hj hc.2), put_other _ _ (fun hc => hj hc.2)]
    · rw [activeOf, hc.1, move, put_other _ _ (fun hc => h.ne c hc.1.symm), put_same]

/-- At the end of a sweep the active queue is empty. -/
lemma sweep_last {b₁ : ℕ} (hs : LStep ncpus s L (.next c b₁ true) s' L') :
    order (activeOf s L c) = [] := by
  cases hs with
  | swap hnone => exact List.flatMap_eq_nil_iff.mpr fun j _ => hnone j

/-- **A sweep is fair.** Between two changes of the active and the inactive queue of a CPU,
`proc_next` runs the nodes that were on the queue once each, in the order of the queue, except
those that `unschedule` took away before their turn, and it runs no node that came meanwhile. -/
theorem sweep_fair {node : ℕ → Node} {junk : ℕ → ℕ} {s₀ s₁ s₂ s₃ : Sys} {evs₀ : List Ev}
    {b₀ b₁ : ℕ} (hr : Trace ncpus ⟨schedInit node junk, []⟩ evs₀ s₀)
    (hfirst : Step ncpus s₀ (.next c b₀ true) s₁) (ht : Trace ncpus s₁ evs s₂)
    (hno : ∀ b, .next c b true ∉ evs) (hlast : Step ncpus s₂ (.next c b₁ true) s₃)
    (hL : Reads s₀.st L) : Fair c (L (s₀.st.cpu c).inactive) (.next c b₀ true :: evs) := by
  obtain ⟨L₀, h₀⟩ := trace_inv (Inv.init node junk) hr
  obtain rfl := hL.eq h₀.rep
  obtain ⟨L₁, h₁, hl₁⟩ := step_lists h₀ hfirst
  obtain ⟨L₂, h₂, hsub, hcov⟩ := sweep h₁ ht hno
  obtain ⟨L₃, -, hl₃⟩ := step_lists h₂ hlast
  rw [sweep_last hl₃, List.append_nil] at hsub hcov
  have hfst := sweep_first hl₁ h₀
  have hch : chosen c (.next c b₀ true :: evs) = b₀ :: chosen c evs := by simp [chosen]
  have hone : ∀ b i j, b ∈ L (s₀.st.cpu c).inactive i → b ∈ L (s₀.st.cpu c).inactive j → i = j :=
    fun b i j hi hj => (h₀.rep.one b _ i _ j hi hj).2
  have hnd := Inv.order_nodup h₀ (s₀.st.cpu c).inactive
  have hsub' : (chosen c (.next c b₀ true :: evs)).Sublist (order (L (s₀.st.cpu c).inactive)) := by
    rw [hch, hfst]
    exact hsub.cons_cons b₀
  -- a later event of the sweep is an event after the first step
  have hlater : ∀ {t₁ ev t₂}, .next c b₀ true :: evs = t₁ ++ ev :: t₂ → ev ≠ .next c b₀ true →
      ∃ t, t₁ = .next c b₀ true :: t ∧ evs = t ++ ev :: t₂ := by
    intro t₁ ev t₂ he hne
    cases t₁ with
    | nil =>
      rw [List.nil_append, List.cons.injEq] at he
      exact absurd he.1.symm hne
    | cons e t =>
      rw [List.cons_append, List.cons.injEq] at he
      exact ⟨t, by rw [he.1], he.2⟩
  refine ⟨fun b hb => hsub'.subset hb, fun b hb => ?_, fun b hb t₁ pid t₂ he hb₁ => ?_,
    fun b t₁ pid i t₂ he => ?_, (order_prio hone).sublist hsub', fun i => ?_⟩
  · by_cases hbc : b ∈ chosen c (.next c b₀ true :: evs)
    · exact Or.inl (List.count_eq_one_of_mem (hnd.sublist hsub') hbc)
    · rw [hfst] at hb
      rw [hch] at hbc
      rcases List.mem_cons.mp hb with rfl | hb
      · exact absurd (by simp) hbc
      · rcases hcov b hb with hb | ⟨pid, hb⟩
        · exact absurd (by simp [hb]) hbc
        · obtain ⟨t₁, t₂, he⟩ := List.append_of_mem hb
          refine Or.inr ⟨.next c b₀ true :: t₁, pid, t₂, by rw [he]; rfl, fun hb' => hbc ?_⟩
          rw [he, chosen_append, ← List.cons_append]
          exact List.mem_append_left _ (by simpa [chosen] using hb')
  · obtain ⟨t, rfl, ht'⟩ := hlater he nofun
    rw [he, chosen_append]
    refine fun hb' => (List.mem_append.mp hb').elim hb₁ ?_
    change b ∉ chosen c t₂
    obtain ⟨i, hbi⟩ := mem_order.mp hb
    have hb0 : b ≠ 0 := (h₀.rep.list _ i).ne b hbi
    subst ht'
    refine sweep_after h₁ ht hno fun u₁ u₂ M₁ M₂ hu hl hmem => ?_
    cases hl with
    | absent => exact hb0 rfl
    | remove _ _ hl _ _ _ =>
      obtain ⟨j, hj⟩ := mem_order.mp hmem
      exact (mem_cut hu.rep hl hj).2 rfl
  · obtain ⟨t, rfl, ht'⟩ := hlater he nofun
    subst ht'
    refine sweep_after h₁ ht hno fun u₁ u₂ M₁ M₂ hu hl hmem => ?_
    have hmem' := (sweep_step (c := c) hu hl nofun).1.subset (List.mem_append_right _ hmem)
    obtain ⟨j, hj⟩ := mem_order.mp hmem'
    cases hl with
    | schedule _ hnew _ _ _ => exact hnew _ j hj
  · rw [← order_filter hone i]
    simpa [order_filter hone i] using hsub'.filter (· ∈ L (s₀.st.cpu c).inactive i)

/-- Two processes are run by priority, and one that comes in between waits. -/
theorem sweep_fair_two : ∃ (s₀ : Sys) (L : Lists), Reads s₀.st L ∧ Fair 0 (L (s₀.st.cpu 0).inactive)
    [.next 0 16 true, .schedule 24 7 0, .next 0 8 false] := by
  obtain ⟨a₁, h₁⟩ : ∃ a, Sched.schedule oneCpu.st 1 0 8 5 1 = .ok a := ⟨_, rfl⟩
  obtain ⟨a₂, h₂⟩ : ∃ a, Sched.schedule a₁ 1 0 16 6 0 = .ok a := by cases h₁; exact ⟨_, rfl⟩
  obtain ⟨a₃, h₃⟩ : ∃ a, procNext (fun _ => true) a₂ 0 = .ok (a, 16, true) := by
    cases h₁; cases h₂; exact ⟨_, rfl⟩
  obtain ⟨a₄, h₄⟩ : ∃ a, Sched.schedule a₃ 1 0 24 7 0 = .ok a := by
    cases h₁; cases h₂; cases h₃; exact ⟨_, rfl⟩
  obtain ⟨a₅, h₅⟩ : ∃ a, procNext (fun _ => true) a₄ 0 = .ok (a, 8, false) := by
    cases h₁; cases h₂; cases h₃; cases h₄; exact ⟨_, rfl⟩
  obtain ⟨a₆, h₆⟩ : ∃ a, procNext (fun _ => true) a₅ 0 = .ok (a, 16, true) := by
    cases h₁; cases h₂; cases h₃; cases h₄; cases h₅; exact ⟨_, rfl⟩
  have hr : Trace 1 oneCpu [.schedule 8 5 1, .schedule 16 6 0] ⟨a₂, [16, 8]⟩ :=
    .cons (.schedule (by decide) (by decide) (by simp [oneCpu]) h₁)
      (.cons (.schedule (by decide) (by decide) (by simp [oneCpu]) h₂) .nil)
  obtain ⟨L, hL⟩ := trace_inv (Inv.init _ _) hr
  refine ⟨_, L, Rep.reads hL.rep, ?_⟩
  exact sweep_fair hr (.next (by decide) h₃)
    (.cons (.schedule (by decide) (by decide) (by simp) h₄) (.cons (.next (by decide) h₅) .nil))
    (by simp) (.next (by decide) h₆) (Rep.reads hL.rep)

end Silkware.SchedSweep
