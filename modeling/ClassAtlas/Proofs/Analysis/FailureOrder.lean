import ClassAtlas.Analysis.Failure

/-!
# Failures in order

Failures are listed by unit and message only. That order is as good as a total one: a message tells
everything else about the error behind it (`UnitFailure.Reported.eq_of_message`), so failures that
stand level are equal, and a list of failures has one sorted form, whatever order it comes in.
-/

namespace ClassAtlas

/-- A number can be read back from a text that starts with its digits and goes on with another
character. -/
theorem toDigits_append_cancel {m n : Nat} {c d : Char} {x y : List Char}
    (hc : c.isDigit = false) (hd : d.isDigit = false)
    (h : Nat.toDigits 10 m ++ c :: x = Nat.toDigits 10 n ++ d :: y) : m = n := by
  have hdigits (k : Nat) : ∀ a ∈ Nat.toDigits 10 k, a.isDigit = true := fun a ha =>
    Nat.isDigit_of_mem_toDigits (by decide) (by decide) ha
  have hm : (Nat.toDigits 10 m ++ c :: x).takeWhile Char.isDigit = Nat.toDigits 10 m ++ [] := by
    rw [List.takeWhile_append_of_pos (hdigits m), List.takeWhile_cons_of_neg (by simp [hc])]
  have hn : (Nat.toDigits 10 n ++ d :: y).takeWhile Char.isDigit = Nat.toDigits 10 n ++ [] := by
    rw [List.takeWhile_append_of_pos (hdigits n), List.takeWhile_cons_of_neg (by simp [hd])]
  have heq : Nat.toDigits 10 m = Nat.toDigits 10 n := by
    rw [← List.append_nil (Nat.toDigits 10 m), ← hm, h, hn, List.append_nil]
  rw [← Nat.ofDigitChars_ten_toDigits (n := m), heq, Nat.ofDigitChars_ten_toDigits]

namespace DecodeError

/-- The letter with which the messages of each class of errors start. -/
def initial : DecodeError → Char
  | format _ => 'I'
  | unexpectedEnd .. => 'U'
  | badIndex .. => 'B'
  | malformed _ => 'D'

theorem head?_message (e : DecodeError) : e.message.toList.head? = some e.initial := by
  cases e <;> unfold message <;> dsimp only [toString] <;> simp [initial]

theorem kind_eq_of_message {e e' : DecodeError} (h : e.message = e'.message) :
    e.kind = e'.kind := by
  have hi : e.initial = e'.initial := by
    simpa [head?_message] using congrArg (·.toList.head?) h
  cases e <;> cases e' <;> simp_all [initial, kind]

theorem toList_message_badIndex (index : UInt16) (wanted : Wanted) (found : Found) :
    ∃ rest, (badIndex index wanted found).message.toList =
      "Bad constant pool index #".toList ++ (Nat.toDigits 10 index.toNat ++ ':' :: rest) := by
  refine ⟨" expected ".toList ++ (wanted.message.toList ++
    (", found ".toList ++ found.message.toList)), ?_⟩
  unfold message
  dsimp only [toString]
  simp

theorem toList_message_unexpectedEnd (offset needed available : Nat) :
    ∃ rest, (unexpectedEnd offset needed available).message.toList =
      "Unexpected end of data at offset ".toList ++ (Nat.toDigits 10 offset ++ ':' :: rest) := by
  refine ⟨" needed ".toList ++ (Nat.toDigits 10 needed ++
    (" bytes, ".toList ++ (Nat.toDigits 10 available ++ " available".toList))), ?_⟩
  unfold message
  dsimp only [toString]
  simp

theorem index?_eq_of_message {e e' : DecodeError} (h : e.message = e'.message) :
    e.index? = e'.index? := by
  have hk := kind_eq_of_message h
  cases e <;> cases e' <;> try simp [kind, index?] at hk ⊢
  case badIndex index wanted found index' wanted' found' =>
    obtain ⟨x, hx⟩ := toList_message_badIndex index wanted found
    obtain ⟨y, hy⟩ := toList_message_badIndex index' wanted' found'
    rw [h, hy] at hx
    exact UInt16.toNat_inj.1
      (toDigits_append_cancel (by decide) (by decide) (List.append_cancel_left hx)).symm

theorem offset?_eq_of_message {e e' : DecodeError} (h : e.message = e'.message) :
    e.offset? = e'.offset? := by
  have hk := kind_eq_of_message h
  cases e <;> cases e' <;> try simp [kind, offset?] at hk ⊢
  case unexpectedEnd offset needed available offset' needed' available' =>
    obtain ⟨x, hx⟩ := toList_message_unexpectedEnd offset needed available
    obtain ⟨y, hy⟩ := toList_message_unexpectedEnd offset' needed' available'
    rw [h, hy] at hx
    exact (toDigits_append_cancel (by decide) (by decide) (List.append_cancel_left hx)).symm

end DecodeError

namespace UnitFailure

/-- A failure is an error reported under a name. -/
def Reported (f : UnitFailure) : Prop := ∃ unit e, f = ofError unit e

/-- The message tells the rest. -/
theorem Reported.eq_of_message {f f' : UnitFailure} (h : f.Reported) (h' : f'.Reported)
    (hu : f.unit = f'.unit) (hm : f.message = f'.message) : f = f' := by
  obtain ⟨unit, e, rfl⟩ := h
  obtain ⟨unit', e', rfl⟩ := h'
  have hm' : e.message = e'.message := hm
  cases (hu : unit = unit')
  simp [ofError, hm', DecodeError.kind_eq_of_message hm', DecodeError.index?_eq_of_message hm',
    DecodeError.offset?_eq_of_message hm']

/-! ## Sorted lists of failures -/

/-- The comparison behind `precedes`. -/
def order : UnitFailure → UnitFailure → Ordering := compareLex (compareOn unit) (compareOn message)

theorem precedes_eq (f f' : UnitFailure) : f.precedes f' = (order f f').isLE := rfl

instance : Std.TransCmp order :=
  inferInstanceAs (Std.TransCmp (compareLex (compareOn unit) (compareOn message)))

theorem precedes_trans (a b c : UnitFailure) (hab : a.precedes b = true)
    (hbc : b.precedes c = true) : a.precedes c = true := by
  rw [precedes_eq] at hab hbc ⊢
  exact Std.TransCmp.isLE_trans hab hbc

theorem order_swap (a b : UnitFailure) : order b a = (order a b).swap := Std.OrientedCmp.eq_swap

theorem precedes_total (a b : UnitFailure) : (a.precedes b || b.precedes a) = true := by
  rw [precedes_eq, precedes_eq, order_swap a b]
  cases order a b <;> rfl

/-- Failures that stand level have the same unit and the same message. -/
theorem eq_of_precedes {a b : UnitFailure} (hab : a.precedes b = true)
    (hba : b.precedes a = true) : a.unit = b.unit ∧ a.message = b.message := by
  have heq : order a b = .eq := by
    rw [precedes_eq] at hab hba
    rw [order_swap a b] at hba
    cases h : order a b <;> simp_all
  have hthen : (compare a.unit b.unit).then (compare a.message b.message) = .eq := heq
  rw [Ordering.then_eq_eq] at hthen
  exact ⟨Std.LawfulEqCmp.eq_of_compare hthen.1, Std.LawfulEqCmp.eq_of_compare hthen.2⟩

theorem pairwise_sort (l : List UnitFailure) :
    (l.mergeSort precedes).Pairwise fun a b => a.precedes b = true :=
  List.pairwise_mergeSort precedes_trans precedes_total l

/-- A list of reported failures has one sorted form. -/
theorem sort_eq_of_perm {l l' : List UnitFailure} (hl : ∀ f ∈ l, f.Reported) (hp : l.Perm l') :
    l.mergeSort precedes = l'.mergeSort precedes := by
  refine List.Perm.eq_of_pairwise (fun a b ha hb hab hba => ?_) (pairwise_sort l)
    (pairwise_sort l') ((List.mergeSort_perm l _).trans (hp.trans (List.mergeSort_perm l' _).symm))
  rw [List.mem_mergeSort] at ha hb
  obtain ⟨hu, hm⟩ := eq_of_precedes hab hba
  exact (hl a ha).eq_of_message (hl b (hp.mem_iff.2 hb)) hu hm

end UnitFailure

end ClassAtlas
