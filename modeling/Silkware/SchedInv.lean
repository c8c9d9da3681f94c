import Silkware.Fifo
import Silkware.Sched

/-!
What the operations on the run queues do to the lists.
-/

namespace Silkware.SchedInv

open Silkware.Fifo Silkware.Kern Silkware.Links Silkware.Sched

/-- The nodes of each list, by queue and priority. -/
abbrev Lists := ℕ → Prio → List ℕ

/-- `L` with another list in one place. -/
def put (L : Lists) (q : ℕ) (i : Prio) (l : List ℕ) : Lists := fun r j =>
  if r = q ∧ j = i then l else L r j

def nx (s : State) (b : ℕ) : ℕ := (s.node b).next

/-- The lists in memory are those of `L`, and no node is on two of them. -/
structure Rep (s : State) (L : Lists) : Prop where
  list : ∀ q i, Holds (nx s) 0 ((s.queue q).start i) ((s.queue q).end_ i) (L q i)
  one : ∀ b q i r j, b ∈ L q i → b ∈ L r j → q = r ∧ i = j

lemma put_same (L : Lists) (q : ℕ) (i : Prio) (l : List ℕ) : put L q i l q i = l := by
  simp [put]

lemma put_other (L : Lists) {q r : ℕ} {i j : Prio} (l : List ℕ) (h : ¬ (r = q ∧ j = i)) :
    put L q i l r j = L r j := by
  simp [put, h]

variable {s s' : State} {L : Lists}

/-- Replacing one list of the representation. -/
lemma Rep.put (h : Rep s L) {q : ℕ} {i : Prio} {l : List ℕ}
    (hl : Holds (nx s') 0 ((s'.queue q).start i) ((s'.queue q).end_ i) l)
    (hq : ∀ r j, ¬ (r = q ∧ j = i) → (s'.queue r).start j = (s.queue r).start j ∧
      (s'.queue r).end_ j = (s.queue r).end_ j)
    (hn : ∀ r j b, ¬ (r = q ∧ j = i) → b ∈ L r j → nx s' b = nx s b)
    (hone : ∀ b ∈ l, ∀ r j, ¬ (r = q ∧ j = i) → b ∉ L r j) : Rep s' (put L q i l) := by
  refine ⟨fun r j => ?_, fun b r j r' j' hb hb' => ?_⟩
  · by_cases hrj : r = q ∧ j = i
    · obtain ⟨rfl, rfl⟩ := hrj
      rw [put_same]
      exact hl
    · rw [put_other L l hrj, (hq r j hrj).1, (hq r j hrj).2]
      exact (h.list r j).congr fun b hb => hn r j b hrj hb
  · by_cases h1 : r = q ∧ j = i <;> by_cases h2 : r' = q ∧ j' = i
    · exact ⟨h1.1.trans h2.1.symm, h1.2.trans h2.2.symm⟩
    · rw [h1.1, h1.2, put_same] at hb
      rw [put_other L l h2] at hb'
      exact absurd hb' (hone b hb r' j' h2)
    · rw [put_other L l h1] at hb
      rw [h2.1, h2.2, put_same] at hb'
      exact absurd hb (hone b hb' r j h1)
    · rw [put_other L l h1] at hb
      rw [put_other L l h2] at hb'
      exact h.one b r j r' j' hb hb'

/-! ### Putting a node on a list -/

/-- The operations leave the CPUs' queues and the nodes' processes as they are. -/
structure Same (s s' : State) : Prop where
  cpu : s'.cpu = s.cpu
  pid : ∀ b, (s'.node b).pid = (s.node b).pid

lemma Same.trans {s₁ s₂ s₃ : State} (h : Same s₁ s₂) (h' : Same s₂ s₃) : Same s₁ s₃ :=
  ⟨h'.cpu.trans h.cpu, fun b => (h'.pid b).trans (h.pid b)⟩

@[simp] lemma nx_setNext (s : State) (a v b : ℕ) :
    nx (setNext s a v) b = if b = a then v else nx s b := by
  simp only [nx, setNext]
  split <;> rfl

@[simp] lemma nx_setStart (s : State) (q : ℕ) (i : Prio) (v : ℕ) : nx (setStart s q i v) = nx s := rfl

@[simp] lemma nx_setEnd (s : State) (q : ℕ) (i : Prio) (v : ℕ) : nx (setEnd s q i v) = nx s := rfl

@[simp] lemma start_setStart (s : State) (q r : ℕ) (i j : Prio) (v : ℕ) :
    ((setStart s q i v).queue r).start j = if r = q ∧ j = i then v else (s.queue r).start j := by
  simp only [setStart]
  by_cases hr : r = q <;> by_cases hj : j = i <;> simp [hr, hj]

@[simp] lemma end_setStart (s : State) (q r : ℕ) (i : Prio) (v : ℕ) :
    ((setStart s q i v).queue r).end_ = (s.queue r).end_ := by
  simp only [setStart]
  split <;> rfl

@[simp] lemma start_setEnd (s : State) (q r : ℕ) (i : Prio) (v : ℕ) :
    ((setEnd s q i v).queue r).start = (s.queue r).start := by
  simp only [setEnd]
  split <;> rfl

@[simp] lemma end_setEnd (s : State) (q r : ℕ) (i j : Prio) (v : ℕ) :
    ((setEnd s q i v).queue r).end_ j = if r = q ∧ j = i then v else (s.queue r).end_ j := by
  simp only [setEnd]
  by_cases hr : r = q <;> by_cases hj : j = i <;> simp [hr, hj]

@[simp] lemma queue_setNext (s : State) (a v : ℕ) : (setNext s a v).queue = s.queue := rfl

@[simp] lemma pid_setNext (s : State) (a v b : ℕ) :
    ((setNext s a v).node b).pid = (s.node b).pid := by
  simp only [setNext]
  split <;> rfl

@[simp] lemma node_setStart (s : State) (q : ℕ) (i : Prio) (v : ℕ) :
    (setStart s q i v).node = s.node := rfl

@[simp] lemma node_setEnd (s : State) (q : ℕ) (i : Prio) (v : ℕ) :
    (setEnd s q i v).node = s.node := rfl

@[simp] lemma cpu_setNext (s : State) (a v : ℕ) : (setNext s a v).cpu = s.cpu := rfl

@[simp] lemma cpu_setStart (s : State) (q : ℕ) (i : Prio) (v : ℕ) :
    (setStart s q i v).cpu = s.cpu := rfl

@[simp] lemma cpu_setEnd (s : State) (q : ℕ) (i : Prio) (v : ℕ) :
    (setEnd s q i v).cpu = s.cpu := rfl

lemma push_same (s : State) (c new : ℕ) (i : Prio) : Same s (pushUnlocked s c new i) := by
  unfold pushUnlocked
  dsimp only
  split <;> split <;> exact ⟨by simp, fun b => by simp⟩

/-- `push_unlocked` puts a node that is on no list at the end of its list. -/
lemma Rep.push (h : Rep s L) (c : ℕ) (i : Prio) {new : ℕ} (h0 : new ≠ 0) (hn : nx s new = 0)
    (hnew : ∀ q j, new ∉ L q j) :
    Rep (pushUnlocked s c new i)
      (SchedInv.put L (s.cpu c).inactive i (L (s.cpu c).inactive i ++ [new])) := by
  set q := (s.cpu c).inactive with hq
  set last := (s.queue q).end_ i with hlast
  have hl := h.list q i
  have hlm : last ≠ 0 → last ∈ L q i := hl.end_mem
  have hnx : ∀ b, nx (pushUnlocked s c new i) b = if last ≠ 0 ∧ b = last then new else nx s b := by
    intro b
    simp only [pushUnlocked, ← hq, ← hlast]
    by_cases hz : last = 0 <;> simp only [hz, ne_eq, not_true, not_false_iff, if_true, if_false,
      false_and, true_and] <;> split <;> simp
  have hst : ∀ r j, ((pushUnlocked s c new i).queue r).start j =
      if (r = q ∧ j = i) ∧ (s.queue q).start i = 0 then new else (s.queue r).start j := by
    intro r j
    simp only [pushUnlocked, ← hq, ← hlast]
    by_cases hz : last = 0 <;> by_cases hs : (s.queue q).start i = 0 <;> simp [hz, hs]
  have hen : ∀ r j, ((pushUnlocked s c new i).queue r).end_ j =
      if r = q ∧ j = i then new else (s.queue r).end_ j := by
    intro r j
    simp only [pushUnlocked, ← hq, ← hlast]
    by_cases hz : last = 0 <;> by_cases hs : (s.queue q).start i = 0 <;> simp [hz, hs]
  refine h.put ?_ (fun r j hrj => ?_) (fun r j b hrj hb => ?_) (fun b hb r j hrj => ?_)
  · rw [hen q i, if_pos ⟨rfl, rfl⟩]
    refine hl.push h0 (hnew q i) (fun x hx hne => ?_) (fun hne => ?_) ?_ ?_
    · rw [hnx, if_neg (fun hc => hne hc.2)]
    · rw [hnx, if_pos ⟨hne, rfl⟩]
    · rw [hnx, if_neg, hn]
      rintro ⟨hne, rfl⟩
      exact hnew q i (hlm hne)
    · rw [hst q i]
      simp only [true_and, and_self, hl.start_eq_null]
  · rw [hst r j, hen r j, if_neg fun hc => hrj hc.1, if_neg hrj]
    exact ⟨rfl, rfl⟩
  · rw [hnx, if_neg]
    rintro ⟨hne, rfl⟩
    have := h.one last r j q i hb (hlm hne)
    exact hrj this
  · rcases List.mem_append.mp hb with hb | hb
    · exact fun hb' => hrj (h.one b r j q i hb' hb)
    · rw [List.mem_singleton.mp hb]
      exact hnew r j

/-! ### Unlinking a node -/

/-- Unlinking the node `b`, whose predecessor is `prev`. -/
lemma Rep.cut (h : Rep s L) {q b prev : ℕ} {i : Prio} {l1 l2 : List ℕ}
    (hl : L q i = l1 ++ b :: l2) (hp : prev = l1.getLastD 0) {s₁ s₂ : State}
    (hs₁ : s₁ = if (s.queue q).end_ i = b then setEnd s q i prev else s)
    (hs₂ : s₂ = if prev ≠ 0 then setNext s₁ prev (s₁.node b).next
      else setStart s₁ q i (s₁.node b).next) :
    Rep s₂ (SchedInv.put L q i (l1 ++ l2)) ∧ Same s s₂ := by
  have hh := h.list q i
  rw [hl] at hh
  obtain ⟨hnd1, hnd2, hdisj⟩ := List.nodup_append.mp hh.nodup
  have hnode : s₁.node = s.node := by rw [hs₁]; split <;> rfl
  have hcpu : s₁.cpu = s.cpu := by rw [hs₁]; split <;> rfl
  have hp0 : prev = 0 ↔ l1 = [] := by
    rcases List.eq_nil_or_concat' l1 with rfl | ⟨l0, p, rfl⟩
    · simpa using hp
    · have hpp : prev = p := by simpa using hp
      have := hh.ne p (by simp)
      simp [hpp, this]
  have hpm : prev ≠ 0 → prev ∈ l1 := by
    intro hne
    rcases List.eq_nil_or_concat' l1 with rfl | ⟨l0, p, rfl⟩
    · exact absurd (by simpa using hp) hne
    · simp [hp]
  have hnx : ∀ x, nx s₂ x = if prev ≠ 0 ∧ x = prev then nx s b else nx s x := by
    intro x
    rw [hs₂]
    by_cases hz : prev = 0
    · simp [hz, nx, hnode]
    · simp only [hz, ne_eq, not_false_iff, if_true, true_and, nx_setNext]
      simp only [nx, hnode]
  have hst : ∀ r j, (s₂.queue r).start j =
      if (r = q ∧ j = i) ∧ prev = 0 then nx s b else (s.queue r).start j := by
    intro r j
    have h1 : (s₁.queue r).start = (s.queue r).start := by rw [hs₁]; split <;> simp
    rw [hs₂]
    by_cases hz : prev = 0 <;> simp [hz, h1, hnode, nx]
  have hen : ∀ r j, (s₂.queue r).end_ j =
      if (r = q ∧ j = i) ∧ (s.queue q).end_ i = b then prev else (s.queue r).end_ j := by
    intro r j
    have h1 : (s₂.queue r).end_ j = (s₁.queue r).end_ j := by rw [hs₂]; split <;> simp
    rw [h1, hs₁]
    by_cases he : (s.queue q).end_ i = b <;> simp [he]
  have hlast : (s.queue q).end_ i = b ↔ l2 = [] := by
    have h1 := hh.last
    rcases List.eq_nil_or_concat' l2 with rfl | ⟨l', e, rfl⟩
    · rw [List.getLastD_concat] at h1
      simp [h1]
    · rw [← List.cons_append, ← List.append_assoc, List.getLastD_concat] at h1
      rw [h1]
      simp only [List.append_eq_nil_iff, List.cons_ne_nil, and_false, iff_false]
      rintro rfl
      exact (List.nodup_cons.mp hnd2).1 (by simp)
  refine ⟨h.put ?_ (fun r j hrj => ?_) (fun r j x hrj hx => ?_) (fun x hx r j hrj hx' => ?_), ?_⟩
  · rw [hst q i, hen q i]
    refine hh.cut hp (fun x hx hne => ?_) (fun hne => ?_) ?_ ?_
    · rw [hnx, if_neg fun hc => hne hc.2]
    · rw [hnx, if_pos ⟨hne, rfl⟩]
    · simp [hp0]
    · simp [hlast]
  · rw [hst r j, hen r j, if_neg fun hc => hrj hc.1, if_neg fun hc => hrj hc.1]
    exact ⟨rfl, rfl⟩
  · rw [hnx, if_neg]
    rintro ⟨hne, e⟩
    exact hrj (h.one x r j q i hx (by rw [hl, e]; simp [hpm hne]))
  · refine hrj (h.one x r j q i hx' ?_)
    rw [hl]
    simp only [List.mem_append, List.mem_cons] at hx ⊢
    tauto
  · rw [hs₂]
    split
    · exact ⟨hcpu, fun x => by rw [pid_setNext, hnode]⟩
    · exact ⟨hcpu, fun x => by rw [node_setStart, hnode]⟩

/-- The link of a node on no list does not matter. -/
lemma Rep.off (h : Rep s L) {b v : ℕ} (hb : ∀ q i, b ∉ L q i) :
    Rep (setNext s b v) L ∧ Same s (setNext s b v) := by
  refine ⟨⟨fun q i => ?_, h.one⟩, rfl, fun x => pid_setNext s b v x⟩
  refine (h.list q i).congr fun x hx => ?_
  rw [nx_setNext, if_neg]
  rintro rfl
  exact hb q i hx

/-! ### Taking a node off the active queue -/

/-- The lists after the node `b` went from the front of a list of `q` to the end of the list
of `q'` with the same priority. -/
def move (L : Lists) (q q' : ℕ) (i : Prio) (b : ℕ) (l : List ℕ) : Lists :=
  put (put L q i l) q' i (L q' i ++ [b])

/-- What a search of the active queue for the priorities `is` can do. -/
inductive Popped (s : State) (L : Lists) (c : ℕ) (is : List Prio) : State × ℕ × ℕ → Prop
  | none (h : ∀ i ∈ is, L (s.cpu c).active i = []) : Popped s L c is (s, 0, 0)
  | node {is₁ is₂ : List Prio} {i : Prio} {b : ℕ} {l : List ℕ} {s' : State}
      (his : is = is₁ ++ i :: is₂) (hlow : ∀ j ∈ is₁, L (s.cpu c).active j = [])
      (hl : L (s.cpu c).active i = b :: l)
      (hrep : Rep s' (move L (s.cpu c).active (s.cpu c).inactive i b l)) (hs : Same s s') :
      Popped s L c is (s', b, (s.node b).pid)

lemma Rep.popLoop (h : Rep s L) {c : ℕ} (hne : (s.cpu c).active ≠ (s.cpu c).inactive)
    (is : List Prio) : Popped s L c is (popLoop s c is) := by
  induction is with
  | nil => exact .none (by simp)
  | cons i is ih =>
    set q := (s.cpu c).active with hq
    set b := (s.queue q).start i with hb
    have hl := h.list q i
    rw [Sched.popLoop]
    simp only [← hq, ← hb]
    by_cases h0 : b = 0
    · have he : L q i = [] := hl.start_eq_null.mp h0
      rw [if_neg (by simpa using h0)]
      cases hr : Sched.popLoop s c is with
      | mk s' r =>
        rw [hr] at ih
        cases ih with
        | none hn =>
          refine .none fun j hj => ?_
          rcases List.mem_cons.mp hj with rfl | hj
          · exact he
          · exact hn j hj
        | @node is₁ is₂ i' _ l _ his hlow hl' hrep hs =>
          refine .node (show i :: is = (i :: is₁) ++ i' :: is₂ by rw [his]; rfl) (fun j hj => ?_) hl' hrep hs
          rcases List.mem_cons.mp hj with rfl | hj
          · exact he
          · exact hlow j hj
    · rw [if_pos (by simpa using h0)]
      obtain ⟨l, hbl⟩ : ∃ l, L q i = b :: l := by
        cases hL : L q i with
        | nil => exact absurd (hl.start_eq_null.mpr hL) h0
        | cons d l =>
          rw [hL] at hl
          exact ⟨l, by rw [hb, hl.chain.1]⟩
      rw [hbl] at hl
      have hnd := List.nodup_cons.mp hl.nodup
      set s₁ := if (s.queue q).end_ i = b then setEnd s q i 0 else s with hs₁
      set s₂ := setNext (setStart s₁ q i (s₁.node b).next) b 0 with hs₂
      obtain ⟨hrep₀, hsame₀⟩ := h.cut (show L q i = [] ++ b :: l from hbl) (show 0 = _ from rfl) hs₁
        (if_neg (not_not.mpr rfl)).symm
      have hoff : ∀ r j, b ∉ SchedInv.put L q i l r j := by
        intro r j
        by_cases hrj : r = q ∧ j = i
        · rw [hrj.1, hrj.2, put_same]; exact hnd.1
        · rw [put_other L l hrj]
          exact fun hx => hrj (h.one b r j q i hx (by rw [hbl]; simp))
      rw [List.nil_append] at hrep₀
      obtain ⟨hrep, hsame⟩ := hrep₀.off (v := 0) hoff
      have hsame : Same s s₂ := hsame₀.trans hsame
      have hc₂ : s₂.cpu c = s.cpu c := by rw [hsame.cpu]
      have hfin := hrep.push c i h0 (show nx s₂ b = 0 by rw [hs₂, nx_setNext, if_pos rfl]) hoff
      have hsf := hsame.trans (push_same s₂ c b i)
      rw [hc₂, put_other L l (fun hc => hne (hc.1.symm))] at hfin
      rw [hsf.pid]
      exact .node (show i :: is = [] ++ i :: is from rfl) (by simp) hbl hfin hsf

/-! ### Removing a node -/

lemma removeWalk_spec {pid fuel prev start p n : ℕ} {l : List ℕ} (h : Chain (nx s) start l 0)
    (hr : removeWalk s pid fuel prev start = .ok (some (p, n))) :
    ∃ l1 l2, l = l1 ++ n :: l2 ∧ p = l1.getLastD prev ∧ (s.node n).pid = pid ∧
      ∀ x ∈ l1, (s.node x).pid ≠ pid := by
  induction l generalizing fuel prev start with
  | nil =>
    obtain rfl : start = 0 := h
    cases fuel with
    | zero => cases hr
    | succ fuel => rw [removeWalk, if_pos rfl] at hr; cases hr
  | cons d l ih =>
    obtain ⟨rfl, h2⟩ := h
    cases fuel with
    | zero => cases hr
    | succ fuel =>
      rw [removeWalk] at hr
      split at hr
      · cases hr
      · split at hr
        · cases hr
          exact ⟨[], l, rfl, rfl, ‹_›, by simp⟩
        · rename_i hpid
          obtain ⟨l1, l2, he, hp, hn, hno⟩ := ih h2 hr
          refine ⟨start :: l1, l2, by rw [he]; rfl, ?_, hn, fun x hx => ?_⟩
          · rw [hp, List.getLastD_cons]
          · rcases List.mem_cons.mp hx with rfl | hx
            · exact hpid
            · exact hno x hx

lemma removeWalk_none {pid fuel prev start : ℕ} {l : List ℕ} (h : Chain (nx s) start l 0)
    (h0 : ∀ x ∈ l, x ≠ 0) (hr : removeWalk s pid fuel prev start = .ok none) :
    ∀ x ∈ l, (s.node x).pid ≠ pid := by
  induction l generalizing fuel prev start with
  | nil => simp
  | cons d l ih =>
    obtain ⟨rfl, h2⟩ := h
    cases fuel with
    | zero => cases hr
    | succ fuel =>
      rw [removeWalk, if_neg (h0 start (by simp))] at hr
      split at hr
      · cases hr
      · rename_i hpid
        intro x hx
        rcases List.mem_cons.mp hx with rfl | hx
        · exact hpid
        · exact ih h2 (fun y hy => h0 y (by simp [hy])) hr x hx

lemma removeWalk_total (pid prev : ℕ) {fuel start : ℕ} {l : List ℕ} (h : Chain (nx s) start l 0)
    (hf : l.length < fuel) : ∃ r, removeWalk s pid fuel prev start = .ok r := by
  induction l generalizing fuel prev start with
  | nil =>
    obtain rfl : start = 0 := h
    cases fuel with
    | zero => cases hf
    | succ fuel => exact ⟨none, by rw [removeWalk, if_pos rfl]; rfl⟩
  | cons d l ih =>
    obtain ⟨rfl, h2⟩ := h
    cases fuel with
    | zero => cases hf
    | succ fuel =>
      rw [removeWalk]
      split
      · exact ⟨_, rfl⟩
      · split
        · exact ⟨_, rfl⟩
        · exact ih _ h2 (by simpa using hf)

/-- What `queue_tryremove` can do on the priorities `is`. -/
inductive Removed (s : State) (L : Lists) (q pid : ℕ) (is : List Prio) : State × ℕ → Prop
  | none (h : ∀ i ∈ is, ∀ x ∈ L q i, (s.node x).pid ≠ pid) : Removed s L q pid is (s, 0)
  | node {i : Prio} {b : ℕ} {l1 l2 : List ℕ} {s' : State} (hb : b ≠ 0) (hl : L q i = l1 ++ b :: l2)
      (hpid : (s.node b).pid = pid) (hrep : Rep s' (put L q i (l1 ++ l2))) (hs : Same s s') :
      Removed s L q pid is (s', b)

lemma Rep.removeLoop (h : Rep s L) {fuel q pid : ℕ} {is : List Prio} {r : State × ℕ}
    (hr : removeLoop fuel s q pid is = .ok r) : Removed s L q pid is r := by
  induction is with
  | nil => cases hr; exact .none (by simp)
  | cons i is ih =>
    have hl := h.list q i
    rw [Sched.removeLoop] at hr
    cases hw : removeWalk s pid fuel 0 ((s.queue q).start i) with
    | error e => simp [hw, bind, Except.bind] at hr
    | ok o =>
      cases o with
      | none =>
        simp only [hw, bind, Except.bind] at hr
        have hno := removeWalk_none hl.chain hl.ne hw
        cases ih hr with
        | none hn =>
          refine .none fun j hj => ?_
          rcases List.mem_cons.mp hj with rfl | hj
          · exact hno
          · exact hn j hj
        | node hb hl' hpid hrep hs => exact .node hb hl' hpid hrep hs
      | some pn =>
        obtain ⟨p, n⟩ := pn
        simp only [hw, bind, Except.bind, pure, Except.pure, Except.ok.injEq] at hr
        subst hr
        obtain ⟨l1, l2, he, hp, hpid, -⟩ := removeWalk_spec hl.chain hw
        obtain ⟨hrep, hs⟩ := h.cut he hp rfl rfl
        exact .node (hl.ne n (by rw [he]; simp)) he hpid hrep hs

lemma Rep.removeLoop_total (h : Rep s L) (pid : ℕ) {fuel q : ℕ} {is : List Prio}
    (hf : ∀ i ∈ is, (L q i).length < fuel) : ∃ r, Sched.removeLoop fuel s q pid is = .ok r := by
  induction is with
  | nil => exact ⟨_, rfl⟩
  | cons i is ih =>
    obtain ⟨o, ho⟩ := removeWalk_total pid 0 (h.list q i).chain (hf i (by simp))
    rw [Sched.removeLoop]
    cases o with
    | none =>
      simp only [ho, bind, Except.bind]
      exact ih fun j hj => hf j (by simp [hj])
    | some pn =>
      simp only [ho, bind, Except.bind]
      exact ⟨_, rfl⟩

end Silkware.SchedInv
