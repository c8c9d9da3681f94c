import Silkware.Links

/-!
Linked lists kept by their first and their last node, as queues use them.

The lemmas say what a queue holds after a node was put at its end or cut out of it, in terms of
the links the operation leaves behind.
-/

namespace Silkware.Fifo

open Silkware.Links

variable {α : Type*} {nx nx' : α → α} {null start end_ : α} {l : List α}

/-- The list from `start` holds the nodes `l`, and `end_` is the last of them. -/
structure Holds (nx : α → α) (null start end_ : α) (l : List α) : Prop where
  chain : Chain nx start l null
  last : end_ = l.getLastD null
  ne : ∀ b ∈ l, b ≠ null
  nodup : l.Nodup

lemma Holds.nil (nx : α → α) (null : α) : Holds nx null null null [] :=
  ⟨rfl, rfl, by simp, List.nodup_nil⟩

/-- A queue only depends on the links of its nodes. -/
lemma Holds.congr (h : Holds nx null start end_ l) (hn : ∀ b ∈ l, nx' b = nx b) :
    Holds nx' null start end_ l :=
  ⟨h.chain.congr hn, h.last, h.ne, h.nodup⟩

lemma Holds.start_eq_null (h : Holds nx null start end_ l) : start = null ↔ l = [] := by
  cases l with
  | nil => exact ⟨fun _ => rfl, fun _ => h.chain⟩
  | cons b l =>
    obtain ⟨rfl, -⟩ := h.chain
    simpa using h.ne start (by simp)

lemma Holds.end_eq_null (h : Holds nx null start end_ l) : end_ = null ↔ l = [] := by
  rcases List.eq_nil_or_concat' l with rfl | ⟨l, b, rfl⟩
  · simpa using h.last
  · have h1 : end_ = b := by simpa using h.last
    have h2 := h.ne b (by simp)
    simp [h1, h2]

/-- The link of the last node is `null`. -/
lemma Holds.next_end (h : Holds nx null start end_ l) (hne : end_ ≠ null) : nx end_ = null := by
  rcases List.eq_nil_or_concat' l with rfl | ⟨l, b, rfl⟩
  · exact absurd h.last hne
  · have h1 : end_ = b := by simpa using h.last
    rw [h1]
    exact (chain_snoc.mp h.chain).2

lemma Holds.end_mem (h : Holds nx null start end_ l) (hne : end_ ≠ null) : end_ ∈ l := by
  rcases List.eq_nil_or_concat' l with rfl | ⟨l, b, rfl⟩
  · exact absurd h.last hne
  · rw [h.last, List.getLastD_concat]
    simp

/-- Put the node `b` at the end. -/
lemma Holds.push (h : Holds nx null start end_ l) {b : α} (hb : b ≠ null) (hbl : b ∉ l)
    (hold : ∀ x ∈ l, x ≠ end_ → nx' x = nx x) (hend : end_ ≠ null → nx' end_ = b)
    (hnew : nx' b = null) {start' : α} (hs : start' = if l = [] then b else start) :
    Holds nx' null start' b (l ++ [b]) := by
  refine ⟨chain_snoc.mpr ⟨?_, hnew⟩, by simp, ?_, ?_⟩
  · rcases List.eq_nil_or_concat' l with rfl | ⟨l', e, rfl⟩
    · simpa using hs
    · have he : end_ = e := by simpa using h.last
      have hne := h.ne e (by simp)
      rw [if_neg (by simp)] at hs
      rw [hs]
      refine h.chain.relink (fun x hx => hold x (by simp [hx]) ?_) (by rw [← he]; exact hend (he ▸ hne))
      have hnd := (List.nodup_append.mp h.nodup).2.2 x hx e (by simp)
      rwa [he]
  · intro x hx
    rcases List.mem_append.mp hx with hx | hx
    · exact h.ne x hx
    · rwa [List.mem_singleton.mp hx]
  · refine List.nodup_append.mpr ⟨h.nodup, by simp, fun x hx y hy => ?_⟩
    rw [List.mem_singleton.mp hy]
    exact fun e => hbl (e ▸ hx)

/-- Cut the node `b` out; `prev` is the node before it. -/
lemma Holds.cut {b prev : α} {l1 l2 : List α} (h : Holds nx null start end_ (l1 ++ b :: l2))
    (hprev : prev = l1.getLastD null) (hold : ∀ x ∈ l1 ++ l2, x ≠ prev → nx' x = nx x)
    (hp : prev ≠ null → nx' prev = nx b) {start' end' : α}
    (hs : start' = if l1 = [] then nx b else start) (he : end' = if l2 = [] then prev else end_) :
    Holds nx' null start' end' (l1 ++ l2) := by
  obtain ⟨hnd1, hnd2, hdisj⟩ := List.nodup_append.mp h.nodup
  obtain ⟨c, h1, rfl, h2⟩ := chain_append.mp h.chain
  have hprev1 : ∀ x, x ∉ l1 → x ≠ null → x ≠ prev := by
    intro x hx h0 hxp
    rcases List.eq_nil_or_concat' l1 with rfl | ⟨l0, p, rfl⟩
    · exact h0 (by rw [hxp, hprev]; rfl)
    · exact hx (by rw [hxp, hprev]; simp)
  have h2' : Chain nx' (nx c) l2 null := by
    refine h2.congr fun x hx => hold x (by simp [hx]) (hprev1 x (fun hx1 => ?_) ?_)
    · exact hdisj x hx1 x (by simp [hx]) rfl
    · exact h.ne x (by simp [hx])
  refine ⟨chain_append.mpr ⟨nx c, ?_, h2'⟩, ?_, fun x hx => h.ne x ?_, ?_⟩
  · rcases List.eq_nil_or_concat' l1 with rfl | ⟨l0, p, rfl⟩
    · simpa using hs
    · have hpp : prev = p := by simpa using hprev
      have hpn : p ≠ null := h.ne p (by simp)
      rw [if_neg (by simp)] at hs
      rw [hs]
      refine h1.relink (fun x hx => hold x (by simp [hx]) ?_) (by rw [← hpp]; exact hp (hpp ▸ hpn))
      rw [hpp]
      exact (List.nodup_append.mp hnd1).2.2 x hx p (by simp)
  · rw [he]
    rcases List.eq_nil_or_concat' l2 with rfl | ⟨l0, e, rfl⟩
    · simpa using hprev
    · rw [if_neg (by simp), h.last, ← List.cons_append, ← List.append_assoc, ← List.append_assoc,
        List.getLastD_concat, List.getLastD_concat]
  · simp only [List.mem_append, List.mem_cons] at hx ⊢
    tauto
  · exact (List.nodup_cons.mp (List.perm_middle.nodup_iff.mp h.nodup)).2

end Silkware.Fifo
