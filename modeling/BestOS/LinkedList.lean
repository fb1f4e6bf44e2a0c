/-
BestOS/LinkedList.lean

Doubly linked lists, independent of any particular program.

The pointers are two functions `next` and `prev` from addresses to addresses,
and 0 is no address.  `Linked next prev before l` says that they lead along the
list `l`, whose first member has `before` in front of it.  A list is pushed to at
its front and a member is taken out wherever it stands:

* `Linked.push`  — the new member in front, the old front pointing back to it;
* `Linked.erase` — the two neighbours of a member pointing to each other.

Both ask only for the pointers of the members after the change, so that a client
may keep them where it likes.
-/
import Mathlib.Data.List.Basic
import Mathlib.Data.List.Nodup
import Mathlib.Tactic.Common

namespace LinkedList

variable {next prev next' prev' : Nat → Nat} {before a b : Nat} {l : List Nat}

/-- The pointers lead along `l`, behind `before`. -/
def Linked (next prev : Nat → Nat) : Nat → List Nat → Prop
  | _, [] => True
  | before, a :: l =>
      a ≠ 0 ∧ prev a = before ∧ next a = l.headD 0 ∧ Linked next prev a l

theorem Linked.ne_zero (h : Linked next prev before l) (ha : a ∈ l) : a ≠ 0 := by
  induction l generalizing before with
  | nil => cases ha
  | cons b l ih =>
      rcases List.mem_cons.mp ha with rfl | ha
      · exact h.1
      · exact ih h.2.2.2 ha

/-- Links depend on the pointers of the members only. -/
theorem Linked.congr (h : Linked next prev before l) (hn : ∀ b ∈ l, next' b = next b)
    (hp : ∀ b ∈ l, prev' b = prev b) : Linked next' prev' before l := by
  induction l generalizing before with
  | nil => trivial
  | cons b l ih =>
      obtain ⟨hne, hprev, hnext, hrest⟩ := h
      exact ⟨hne, (hp b (by simp)).trans hprev, (hn b (by simp)).trans hnext,
        ih hrest (fun c hc => hn c (by simp [hc])) fun c hc => hp c (by simp [hc])⟩

/-- What follows a member is a member behind it, or NULL. -/
theorem Linked.next_mem (h : Linked next prev before l) (ha : a ∈ l) :
    next a = 0 ∨ next a ∈ l.tail := by
  induction l generalizing before with
  | nil => cases ha
  | cons b l ih =>
      obtain ⟨-, -, hnext, hrest⟩ := h
      rcases List.mem_cons.mp ha with rfl | ha
      · cases l with
        | nil => exact .inl hnext
        | cons c l => exact .inr (by simp [hnext])
      · exact (ih hrest ha).imp_right List.mem_of_mem_tail

/-- What stands in front of a member is a member, or what stands in front of the list. -/
theorem Linked.prev_mem (h : Linked next prev before l) (ha : a ∈ l) :
    prev a = before ∨ prev a ∈ l := by
  induction l generalizing before with
  | nil => cases ha
  | cons b l ih =>
      obtain ⟨-, hprev, -, hrest⟩ := h
      rcases List.mem_cons.mp ha with rfl | ha
      · exact .inl hprev
      · rcases ih hrest ha with hb | hmem
        · exact .inr (by simp [hb])
        · exact .inr (List.mem_cons_of_mem b hmem)

/-- What stands in front of a later member is a member. -/
theorem Linked.prev_mem_of_tail (h : Linked next prev before (b :: l)) (ha : a ∈ l) :
    prev a ∈ b :: l := by
  rcases h.2.2.2.prev_mem ha with hb | hmem
  · simp [hb]
  · exact List.mem_cons_of_mem b hmem

/-- No member leads to itself. -/
theorem Linked.next_ne (h : Linked next prev before l) (hnd : l.Nodup) (ha : a ∈ l) :
    next a ≠ a := by
  induction l generalizing before with
  | nil => cases ha
  | cons b l ih =>
      obtain ⟨hne, -, hnext, hrest⟩ := h
      obtain ⟨hb, hndl⟩ := List.nodup_cons.mp hnd
      rcases List.mem_cons.mp ha with rfl | ha
      · cases l with
        | nil => exact fun he => hne (he.symm.trans hnext)
        | cons c l =>
            intro he
            have hac : a = c := he.symm.trans hnext
            exact hb (by simp [hac])
      · exact ih hrest hndl ha

theorem Linked.prev_ne (h : Linked next prev before l) (hnd : (before :: l).Nodup) (ha : a ∈ l) :
    prev a ≠ a := by
  induction l generalizing before with
  | nil => cases ha
  | cons b l ih =>
      obtain ⟨-, hprev, -, hrest⟩ := h
      obtain ⟨hbefore, hndl⟩ := List.nodup_cons.mp hnd
      rcases List.mem_cons.mp ha with rfl | ha
      · exact fun he => hbefore (by simp [← hprev, he])
      · exact ih hrest hndl ha

/-- **A new front.** -/
theorem Linked.push (h : Linked next prev 0 l) (hnd : l.Nodup) (ha : a ≠ 0)
    (hnext : next' a = l.headD 0) (hprev : prev' a = 0)
    (hn : ∀ b ∈ l, next' b = next b)
    (hp : ∀ b ∈ l, prev' b = if b = l.headD 0 then a else prev b) :
    Linked next' prev' 0 (a :: l) := by
  refine ⟨ha, hprev, hnext, ?_⟩
  cases l with
  | nil => trivial
  | cons b l =>
      obtain ⟨hne, -, hnb, hrest⟩ := h
      have hout := (List.nodup_cons.mp hnd).1
      refine ⟨hne, (hp b (by simp)).trans (by simp), (hn b (by simp)).trans hnb,
        hrest.congr (fun c hc => hn c (by simp [hc])) fun c hc => ?_⟩
      have hcb : c ≠ b := fun e => hout (e ▸ hc)
      rw [hp c (by simp [hc]), List.headD_cons, if_neg hcb]

/-- **A member taken out**: the one before it leads to the one behind it. -/
theorem Linked.erase (h : Linked next prev before l) (hnd : (before :: l).Nodup) (ha : a ∈ l)
    (hn : ∀ b ∈ l, b ≠ a → next' b = if b = prev a then next a else next b)
    (hp : ∀ b ∈ l, b ≠ a → prev' b = if b = next a then prev a else prev b) :
    Linked next' prev' before (l.erase a) := by
  induction l generalizing before with
  | nil => cases ha
  | cons b l ih =>
      have hb := h
      obtain ⟨hne, hprev, hnext, hrest⟩ := h
      obtain ⟨hbefore, hndl⟩ := List.nodup_cons.mp hnd
      have hbl := (List.nodup_cons.mp hndl).1
      by_cases hba : b = a
      · -- the member is the front; the next one takes its place
        subst hba
        rw [List.erase_cons_head]
        have hne_of : ∀ c ∈ l, c ≠ b := fun c hc e => hbl (e ▸ hc)
        have hstay : ∀ c ∈ l, next' c = next c := by
          intro c hc
          have hcp : c ≠ prev b := fun e => hbefore (by rw [← hprev, ← e]; simp [hc])
          rw [hn c (by simp [hc]) (hne_of c hc), if_neg hcp]
        cases l with
        | nil => trivial
        | cons c l =>
            obtain ⟨hcne, hcprev, hcnext, hcrest⟩ := hrest
            have hcl := (List.nodup_cons.mp (List.nodup_cons.mp hndl).2).1
            refine ⟨hcne, ?_, (hstay c (by simp)).trans hcnext, hcrest.congr
              (fun d hd => hstay d (by simp [hd])) fun d hd => ?_⟩
            · rw [hp c (by simp) (hne_of c (by simp)), if_pos (by rw [hnext]; rfl), hprev]
            · have hdn : d ≠ next b := by
                rw [hnext, List.headD_cons]
                exact fun e => hcl (e ▸ hd)
              rw [hp d (by simp [hd]) (hne_of d (by simp [hd])), if_neg hdn]
      · -- the member stands further on; the front keeps its place
        have hmem : a ∈ l := (List.mem_cons.mp ha).resolve_left (Ne.symm hba)
        rw [List.erase_cons_tail (by simpa using hba)]
        refine ⟨hne, ?_, ?_, ih hrest hndl hmem (fun c hc => hn c (by simp [hc]))
          fun c hc => hp c (by simp [hc])⟩
        · have hbn : b ≠ next a := by
            rcases hrest.next_mem hmem with h0 | ht
            · rwa [h0]
            · exact fun e => hbl (e ▸ List.mem_of_mem_tail ht)
          rw [hp b (by simp) hba, if_neg hbn, hprev]
        · cases l with
          | nil => cases hmem
          | cons c l =>
              by_cases hca : c = a
              · subst hca
                rw [hn b (by simp) hba, if_pos hrest.2.1.symm, hrest.2.2.1,
                  List.erase_cons_head]
              · have hmem' := (List.mem_cons.mp hmem).resolve_left (Ne.symm hca)
                have hbp : b ≠ prev a := fun e => hbl (e ▸ hrest.prev_mem_of_tail hmem')
                rw [hn b (by simp) hba, if_neg hbp, hnext, List.headD_cons,
                  List.erase_cons_tail (by simpa using hca), List.headD_cons]

/-- The front after a member was taken out. -/
theorem Linked.head_erase (h : Linked next prev 0 l) (ha : a ≠ 0) :
    (l.erase a).headD 0 = if l.headD 0 = a then next a else l.headD 0 := by
  cases l with
  | nil => simp [ha.symm]
  | cons b l =>
      by_cases hba : b = a
      · subst hba
        simp [h.2.2.1]
      · rw [List.erase_cons_tail (by simpa using hba)]
        simp [hba]

end LinkedList
