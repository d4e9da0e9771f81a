import Mathlib.Data.List.Sort
import Mathlib.Order.Lex

/-! Keyset pagination: bounded pages of a finite collection, read in key order from a cursor. -/
namespace Page

universe u v

variable {α : Type u} {κ : Type v} [LinearOrder κ]

/-- The elements past the cursor, in key order. -/
def rest (key : α → κ) (after : κ) (l : List α) : List α :=
  (l.filter fun x => after < key x).insertionSort fun x y => key x ≤ key y

/-- At most `limit` of the elements past the cursor, the smallest keys first. -/
def page (key : α → κ) (after : κ) (limit : Nat) (l : List α) : List α :=
  (rest key after l).take limit

variable {key : α → κ} {after : κ} {limit : Nat} {l : List α} {x y : α}

@[simp] theorem mem_rest : x ∈ rest key after l ↔ x ∈ l ∧ after < key x := by
  simp [rest]

theorem sorted_rest : (rest key after l).Pairwise fun x y => key x ≤ key y := by
  have : Std.Total (fun x y : α => key x ≤ key y) := ⟨fun x y => le_total (key x) (key y)⟩
  have : IsTrans α (fun x y : α => key x ≤ key y) := ⟨fun _ _ _ h h' => h.trans h'⟩
  exact List.pairwise_insertionSort _ _

theorem nodup_rest (h : l.Nodup) : (rest key after l).Nodup :=
  (List.perm_insertionSort _ _).nodup_iff.mpr (h.filter _)

theorem mem_of_mem_page (h : x ∈ page key after limit l) : x ∈ l ∧ after < key x :=
  mem_rest.mp (List.mem_of_mem_take h)

theorem nodup_page (h : l.Nodup) : (page key after limit l).Nodup :=
  (nodup_rest h).sublist (List.take_sublist _ _)

theorem length_page_le : (page key after limit l).length ≤ l.length := by
  have hlen : (rest key after l).length ≤ l.length := by
    simpa [rest] using List.length_filter_le _ l
  exact (List.length_take_le' _ _).trans hlen

/-- A page that comes back short has everything past the cursor. -/
theorem mem_page_of_short (h : (page key after limit l).length < limit)
    (hx : x ∈ l) (ha : after < key x) : x ∈ page key after limit l := by
  have hlen : (rest key after l).length ≤ limit := by
    simp only [page, List.length_take] at h
    omega
  rw [page, List.take_of_length_le hlen]
  exact mem_rest.mpr ⟨hx, ha⟩

/-- Nothing on a page is past the page's last element. -/
theorem le_last (hy : (page key after limit l).getLast? = some y)
    (hx : x ∈ page key after limit l) : key x ≤ key y := by
  have hs : (page key after limit l).Pairwise fun x y => key x ≤ key y :=
    sorted_rest.sublist (List.take_sublist _ _)
  obtain ⟨init, hinit⟩ := List.getLast?_eq_some_iff.mp hy
  rw [hinit, List.pairwise_append] at hs
  rw [hinit, List.mem_append, List.mem_singleton] at hx
  rcases hx with hx | rfl
  · exact hs.2.2 x hx y (List.mem_singleton_self y)
  · exact le_rfl

/-- What a page leaves out lies past its last element, when keys tell elements apart. -/
theorem mem_page_or_last_lt (hkey : ∀ a ∈ l, ∀ b ∈ l, key a = key b → a = b)
    (hy : (page key after limit l).getLast? = some y) (hx : x ∈ l) (ha : after < key x) :
    x ∈ page key after limit l ∨ key y < key x := by
  have hymem := List.mem_of_getLast? hy
  have hsplit : page key after limit l ++ (rest key after l).drop limit = rest key after l :=
    List.take_append_drop _ _
  have hs : (rest key after l).Pairwise fun x y => key x ≤ key y := sorted_rest
  rw [← hsplit, List.pairwise_append] at hs
  have hxr : x ∈ rest key after l := mem_rest.mpr ⟨hx, ha⟩
  rw [← hsplit, List.mem_append] at hxr
  rcases hxr with hxr | hxr
  · exact .inl hxr
  · rcases (hs.2.2 y hymem x hxr).lt_or_eq with hlt | heq
    · exact .inr hlt
    · have hyx := hkey y (mem_of_mem_page hymem).1 x hx heq
      exact .inl (hyx ▸ hymem)

/-- The list is read off `l` in key order from the cursor on, each element the next one. -/
def Reads (key : α → κ) (l : List α) : κ → List α → Prop
  | _, [] => True
  | after, y :: ys =>
    (y ∈ l ∧ after < key y ∧ ∀ x ∈ l, after < key x → x = y ∨ key y < key x) ∧
      Reads key l (key y) ys

theorem reads_take_of_sorted {s : List α} (hs : s.Pairwise fun x y => key x < key y)
    (hmem : ∀ x, x ∈ s ↔ x ∈ l ∧ after < key x) (n : Nat) : Reads key l after (s.take n) := by
  induction s generalizing after n with
  | nil => simp [Reads]
  | cons y s ih =>
    cases n with
    | zero => simp [Reads]
    | succ n =>
      rw [List.pairwise_cons] at hs
      obtain ⟨hyl, hya⟩ := (hmem y).mp List.mem_cons_self
      have hnext : ∀ x ∈ l, after < key x → x = y ∨ key y < key x := by
        intro x hx ha
        rcases List.mem_cons.mp ((hmem x).mpr ⟨hx, ha⟩) with rfl | hxs
        · exact .inl rfl
        · exact .inr (hs.1 x hxs)
      refine ⟨⟨hyl, hya, hnext⟩, ih hs.2 (fun x => ?_) n⟩
      constructor
      · intro hx
        exact ⟨((hmem x).mp (List.mem_cons_of_mem y hx)).1, hs.1 x hx⟩
      · rintro ⟨hx, hlt⟩
        rcases List.mem_cons.mp ((hmem x).mpr ⟨hx, hya.trans hlt⟩) with rfl | hxs
        · exact absurd hlt (lt_irrefl _)
        · exact hxs

/-- The elements past the cursor are in strict order, when keys tell elements apart. -/
theorem strict_rest (hl : l.Nodup) (hkey : ∀ a ∈ l, ∀ b ∈ l, key a = key b → a = b) :
    (rest key after l).Pairwise fun x y => key x < key y := by
  have hs : (rest key after l).Pairwise fun x y => key x ≤ key y := sorted_rest
  refine List.Pairwise.imp_of_mem ?_ (hs.and (nodup_rest hl))
  intro a b ha hb hab
  refine lt_of_le_of_ne hab.1 fun he => hab.2 ?_
  exact hkey a (mem_rest.mp ha).1 b (mem_rest.mp hb).1 he

/-- A page is read in key order with nothing left out, when keys tell elements apart. -/
theorem reads_page (hl : l.Nodup) (hkey : ∀ a ∈ l, ∀ b ∈ l, key a = key b → a = b) :
    Reads key l after (page key after limit l) :=
  reads_take_of_sorted (strict_rest hl hkey) (fun _ => mem_rest) limit

/-- Past an element of a list in strict key order is what follows it. -/
theorem filter_after {front back : List α} {last : α}
    (h : (front ++ last :: back).Pairwise fun x y => key x < key y) :
    (front ++ last :: back).filter (fun x => key last < key x) = back := by
  obtain ⟨-, hlast, hfront⟩ := List.pairwise_append.mp h
  have hback := (List.pairwise_cons.mp hlast).1
  have hnone : front.filter (fun x => key last < key x) = [] := by
    refine List.filter_eq_nil_iff.mpr fun x hx => ?_
    simpa using (hfront x hx last List.mem_cons_self).le
  have hall : back.filter (fun x => key last < key x) = back := by
    refine List.filter_eq_self.mpr fun x hx => ?_
    simpa using hback x hx
  rw [List.filter_append, List.filter_cons_of_neg (by simp), hnone, hall, List.nil_append]

/-- What a full first part of a list in key order leaves out lies past all of it. -/
theorem mem_take_or_past {n : Nat} (h : l.Pairwise fun x y => key x < key y) (hx : x ∈ l) :
    x ∈ l.take n ∨ (l.take n).length = n ∧ ∀ y ∈ l.take n, key y < key x := by
  rw [← List.take_append_drop n l] at h hx
  refine (List.mem_append.mp hx).imp_right fun hrest => ⟨?_, fun y hy => ?_⟩
  · have hlen := List.length_pos_of_mem hrest
    rw [List.length_drop] at hlen
    rw [List.length_take]
    omega
  · exact (List.pairwise_append.mp h).2.2 y hy x hrest

theorem filter_after_take {n : Nat} {last : α} (h : l.Pairwise fun x y => key x < key y)
    (hlast : (l.take n).getLast? = some last) :
      l.filter (fun x => key last < key x) = l.drop n := by
  obtain ⟨front, hfront⟩ := List.getLast?_eq_some_iff.mp hlast
  have hsplit : l = front ++ last :: l.drop n := by
    rw [← List.singleton_append, ← List.append_assoc, ← hfront, List.take_append_drop]
  conv_lhs => rw [hsplit]
  exact filter_after (hsplit ▸ h)

/-- Up to a bound, a list in key order begins with its elements. -/
theorem takeWhile_le {n : κ} (h : l.Pairwise fun x y => key x < key y) :
    l.takeWhile (fun x => key x ≤ n) = l.filter fun x => key x ≤ n := by
  induction l with
  | nil => rfl
  | cons a l ih =>
    obtain ⟨ha, hl⟩ := List.pairwise_cons.mp h
    by_cases hn : key a ≤ n
    · rw [List.takeWhile_cons_of_pos (by simpa using hn),
        List.filter_cons_of_pos (by simpa using hn),
        ih hl]
    · rw [List.takeWhile_cons_of_neg (by simpa using hn),
        List.filter_cons_of_neg (by simpa using hn)]
      refine (List.filter_eq_nil_iff.mpr fun x hx hle => hn ?_).symm
      exact (ha x hx).le.trans (of_decide_eq_true hle)

/-- Past a bound, it ends with its elements. -/
theorem filter_lt_suffix (n : κ) (h : l.Pairwise fun x y => key x < key y) :
    l.filter (fun x => n < key x) <:+ l := by
  induction l with
  | nil => exact List.suffix_rfl
  | cons a l ih =>
    obtain ⟨ha, hl⟩ := List.pairwise_cons.mp h
    by_cases hn : n < key a
    · have hall : (a :: l).filter (fun x => n < key x) = a :: l := by
        refine List.filter_eq_self.mpr (List.forall_mem_cons.mpr ⟨by simpa using hn, ?_⟩)
        exact fun x hx => by simpa using hn.trans (ha x hx)
      exact ⟨[], hall⟩
    · rw [List.filter_cons_of_neg (by simpa using hn)]
      exact (ih hl).trans (List.suffix_cons a l)

/-- A part of a list in key order has all that lies between its ends. -/
theorem infix_eq_filter {part : List α} {a z : α} (h : l.Pairwise fun x y => key x < key y)
    (hpart : part <:+: l) (ha : part.head? = some a) (hz : part.getLast? = some z) :
    part = l.filter fun x => key a ≤ key x ∧ key x ≤ key z := by
  obtain ⟨front, back, rfl⟩ := hpart
  obtain ⟨hleft, -, hback⟩ := List.pairwise_append.mp h
  obtain ⟨-, hmid, hfront⟩ := List.pairwise_append.mp hleft
  have hamem := List.mem_of_head? ha
  have hzmem := List.mem_of_getLast? hz
  have hge : ∀ x ∈ part, key a ≤ key x := by
    obtain ⟨xs, rfl⟩ := List.head?_eq_some_iff.mp ha
    exact List.forall_mem_cons.mpr ⟨le_rfl, fun x hx => ((List.pairwise_cons.mp hmid).1 x hx).le⟩
  have hle : ∀ x ∈ part, key x ≤ key z := by
    intro x hx
    obtain ⟨xs, rfl⟩ := List.getLast?_eq_some_iff.mp hz
    rcases List.mem_append.mp hx with hx | hx
    · exact ((List.pairwise_append.mp hmid).2.2 x hx z List.mem_cons_self).le
    · rw [List.mem_singleton.mp hx]
  have hnone : front.filter (fun x => key a ≤ key x ∧ key x ≤ key z) = [] := by
    refine List.filter_eq_nil_iff.mpr fun x hx hcond => ?_
    exact absurd (of_decide_eq_true hcond).1 (hfront x hx a hamem).not_ge
  have hrest : back.filter (fun x => key a ≤ key x ∧ key x ≤ key z) = [] := by
    refine List.filter_eq_nil_iff.mpr fun x hx hcond => ?_
    exact absurd (of_decide_eq_true hcond).2
      (hback z (List.mem_append_right front hzmem) x hx).not_ge
  have hall : part.filter (fun x => key a ≤ key x ∧ key x ≤ key z) = part :=
    List.filter_eq_self.mpr fun x hx => decide_eq_true ⟨hge x hx, hle x hx⟩
  rw [List.filter_append, List.filter_append, hnone, hrest, hall, List.append_nil,
    List.nil_append]

universe w z

variable {σ : Type w} {γ : Type z}

end Page
