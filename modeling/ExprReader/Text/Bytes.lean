/-! # Byte lengths of text

Offsets into a text count the bytes of its UTF-8 encoding. A text is measured by `byteLength`, and
`splitBytes?` cuts it at an offset, which is possible exactly on a border between two characters. -/

namespace ExprReader

/-- The number of bytes of a text. -/
def byteLength (text : List Char) : Nat :=
  text.foldr (fun c bytes => c.utf8Size + bytes) 0

@[simp] theorem byteLength_nil : byteLength [] = 0 := rfl

@[simp] theorem byteLength_cons (c : Char) (text : List Char) :
    byteLength (c :: text) = c.utf8Size + byteLength text := rfl

@[simp] theorem byteLength_append (front back : List Char) :
    byteLength (front ++ back) = byteLength front + byteLength back := by
  induction front with
  | nil => simp
  | cons c front ih => rw [List.cons_append, byteLength_cons, byteLength_cons, ih, Nat.add_assoc]

/-- Cuts a text after `count` bytes. There is no cut beyond the end or inside a character. -/
def splitBytes? : List Char → Nat → Option (List Char × List Char)
  | text, 0 => some ([], text)
  | [], _ + 1 => none
  | c :: text, count + 1 =>
    if c.utf8Size ≤ count + 1 then
      (splitBytes? text (count + 1 - c.utf8Size)).map fun parts => (c :: parts.1, parts.2)
    else none

/-- The cut succeeds exactly at the byte length of a front part, and gives that part and the rest. -/
theorem splitBytes?_eq_some_iff {text front back : List Char} {count : Nat} :
    splitBytes? text count = some (front, back) ↔ text = front ++ back ∧ byteLength front = count := by
  induction text generalizing front count with
  | nil =>
    cases front with
    | nil => cases count <;> simp [splitBytes?, eq_comm]
    | cons d front => cases count <;> simp [splitBytes?]
  | cons c text ih =>
    have hc : 0 < c.utf8Size := c.utf8Size_pos
    cases count with
    | zero =>
      cases front with
      | nil => simp [splitBytes?]
      | cons d front =>
        have hd : 0 < d.utf8Size := d.utf8Size_pos
        simp only [splitBytes?, Option.some.injEq, Prod.mk.injEq, byteLength_cons, reduceCtorEq, false_and, false_iff]
        omega
    | succ count =>
      by_cases hle : c.utf8Size ≤ count + 1
      · cases front with
        | nil => simp [splitBytes?, hle]
        | cons d front =>
          simp only [splitBytes?, hle, if_true, Option.map_eq_some_iff, Prod.mk.injEq, List.cons.injEq, Prod.exists,
            List.cons_append, byteLength_cons]
          constructor
          · rintro ⟨a, b, hab, ⟨rfl, rfl⟩, rfl⟩
            obtain ⟨rfl, hlen⟩ := ih.mp hab
            exact ⟨⟨rfl, rfl⟩, by omega⟩
          · rintro ⟨⟨rfl, rfl⟩, hlen⟩
            exact ⟨front, back, ih.mpr ⟨rfl, by omega⟩, ⟨rfl, rfl⟩, rfl⟩
      · cases front with
        | nil => simp [splitBytes?, hle]
        | cons d front =>
          simp only [splitBytes?, hle, if_false, reduceCtorEq, List.cons_append, List.cons.injEq, byteLength_cons,
            false_iff]
          rintro ⟨⟨rfl, rfl⟩, hlen⟩
          omega

end ExprReader
