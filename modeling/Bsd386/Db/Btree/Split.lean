import Bsd386.Db.Btree.Page

/-!
# Splitting a page

`bt_psplit`, `bt_page` and `bt_root`, and the walk of `__bt_split` up the stack of parents. What depends
on whether the tree is a btree or a recno database is a parameter (`Kind`).

Records are put on a page without looking whether there is room. A page whose records reach into its array
of offsets, or with an offset that nothing was written to, has no contents that the model could give:
`none` is the result then.
-/

namespace Bsd386.Db.Btree

variable {α β : Type}

/-! ## One page -/

/-- The loop of `bt_psplit` over the items of the page, given by their bytes and flags, with the item to
insert at the index `skip`. Returns the index of the first item for the right page, and the number of
offsets of the left page, `off + 1`. The first argument bounds the number of iterations.
Source: bt_psplit -/
def psplitLoop (full skip ilen : ℕ) : ℕ → List (ℕ × Bool) → ℕ → ℕ → ℕ → ℕ → ℕ × ℕ
  | 0, _, nxt, off, _, _ => (nxt, off + 1)
  | _ + 1, [], nxt, off, _, _ => (nxt, off + 1)
  | n + 1, x :: rest, nxt, off, used, bigkeycnt =>
    let nbytes := if skip = off then ilen else x.1
    let isbigkey := if skip = off then false else x.2
    -- make sure that it isn't too much for the left page
    if skip ≤ off ∧ full ≤ used + nbytes then (nxt, off)
    else
      let rest' := if skip = off then x :: rest else rest
      let nxt' := if skip = off then nxt else nxt + 1
      if full / 2 ≤ used + nbytes then
        if !isbigkey ∨ bigkeycnt = 3 then (nxt', off + 1)
        else psplitLoop full skip ilen n rest' nxt' (off + 1) (used + nbytes) (bigkeycnt + 1)
      else psplitLoop full skip ilen n rest' nxt' (off + 1) (used + nbytes) bigkeycnt

/-- Where `bt_psplit` splits the page: the index of the first item for the right page, and whether the item
to insert goes to the left page. `none` when it leaves an offset that nothing is written to.
Source: bt_psplit -/
def psplit (full : ℕ) (sizes : List (ℕ × Bool)) (skip ilen : ℕ) : Option (ℕ × Bool) :=
  let (nxt, slots) := psplitLoop full skip ilen (sizes.length + 2) sizes 0 0 0 0
  if skip < slots then
    if slots = nxt + 1 ∧ nxt ≠ 0 then some (nxt, true) else none
  else if slots = nxt then some (nxt, false) else none

/-- The two pages after a split, whether the item is to go to the left one, and its index there. -/
structure Halves where
  l : ℕ
  r : ℕ
  inLeft : Bool
  skip : ℕ

namespace Halves

/-- The page to insert into. Source: bt_psplit -/
def page (v : Halves) : ℕ := if v.inLeft then v.l else v.r

end Halves

/-- Split a non-root page of a btree.
Source: bt_page -/
def btPage (Y : Layout α β) (t : Tree α β) (pg skip ilen : ℕ) : Option (Tree α β × Halves) :=
  let h := t.pages pg
  let (npg, t) := btNew t
  if h.nextpg = 0 ∧ skip = h.body.nextindex then
    -- it's likely that the data is sorted: an empty page on the side of the level
    let t := t.set npg ⟨pg, h.nextpg, false, h.body.take 0⟩
    some (t.set pg { h with nextpg := npg }, ⟨pg, npg, false, 0⟩)
  else
    let t := if h.nextpg ≠ 0 then t.set h.nextpg { t.pages h.nextpg with prevpg := npg } else t
    match psplit (t.psize - btdataoff) (Y.sizes h.body) skip ilen with
    | none => none
    | some (nxt, inLeft) =>
      let t := t.set npg ⟨pg, h.nextpg, false, h.body.drop nxt⟩
      let t := t.set pg ⟨h.prevpg, npg, false, h.body.take nxt⟩
      some (t, ⟨pg, npg, inLeft, if inLeft then skip else skip - nxt⟩)

/-- Split the root page of a btree. The root itself stays as it is.
Source: bt_root -/
def btRoot (Y : Layout α β) (t : Tree α β) (pg skip ilen : ℕ) : Option (Tree α β × Halves) :=
  let h := t.pages pg
  let (lnpg, t) := btNew t
  let (rnpg, t) := btNew t
  match psplit (t.psize - btdataoff) (Y.sizes h.body) skip ilen with
  | none => none
  | some (nxt, inLeft) =>
    let t := t.set lnpg ⟨0, rnpg, false, h.body.take nxt⟩
    let t := t.set rnpg ⟨lnpg, 0, false, h.body.drop nxt⟩
    some (t, ⟨lnpg, rnpg, inLeft, if inLeft then skip else skip - nxt⟩)

/-- The root is split with `bt_root`, another page with `bt_page`.
Source: __bt_split -/
def splitPage (Y : Layout α β) (t : Tree α β) (pg skip ilen : ℕ) : Option (Tree α β × Halves) :=
  if pg = pRoot then btRoot Y t pg skip ilen else btPage Y t pg skip ilen

/-! ## Inserting -/

/-- The list with `x` at the index `n`. -/
def insertAt {γ : Type} (n : ℕ) (x : γ) (xs : List γ) : List γ := xs.take n ++ x :: xs.drop n

/-- A record is put on a leaf page, at the index `skip`. `none` when there is no room for it or an offset
before its own was not written.
Source: __bt_split -/
def putLeaf (Y : Layout α β) (t : Tree α β) (pg skip : ℕ) (x : α) : Option (Tree α β) :=
  let h := t.pages pg
  if skip ≤ h.body.items.length ∧ Y.leafBytes x + indxSize ≤ Y.free t.psize h.body then
    some (t.set pg { h with body := .leaf (insertAt skip x h.body.items) })
  else none

/-- An entry is put on an internal page.
Source: __bt_split -/
def putEntry (Y : Layout α β) (t : Tree α β) (pg skip : ℕ) (e : β) : Option (Tree α β) :=
  let h := t.pages pg
  if skip ≤ h.body.entries.length ∧ Y.internalBytes e + indxSize ≤ Y.free t.psize h.body then
    some (t.set pg { h with body := .internal (insertAt skip e h.body.entries) })
  else none

/-- The entry at an index is changed in place. Source: __bt_split -/
def changeEntry (t : Tree α β) (pg index : ℕ) (f : β → β) : Tree α β :=
  let h := t.pages pg
  t.set pg { h with body := .internal (h.body.entries.modify index f) }

/-! ## Up the stack -/

/-- What `__bt_split` does by the type of the tree: the entry for the right child, given the parent and the
index for it, which is `none` when there is nothing on the pages to make it from; what becomes of the entry
of the left child; the entries of a new root; and what else is done.
Source: __bt_split -/
structure Kind (α β : Type) where
  layout : Layout α β
  right : Tree α β → ℕ → ℕ → ℕ → ℕ → Option β
  left : Tree α β → ℕ → β → β
  root : Tree α β → ℕ → ℕ → Option (List β)
  done : Tree α β → ℕ → Tree α β

/-- If the root page was split, make it look right. `none` when there is nothing to make the entries from
or they do not fit.
Source: bt_rroot, bt_broot -/
def newRoot (K : Kind α β) (t : Tree α β) (l r : ℕ) : Option (Tree α β) :=
  match K.root t l r with
  | none => none
  | some es =>
    if K.layout.used (.internal es) ≤ t.psize - btdataoff then
      some (K.done (t.set pRoot { t.pages pRoot with body := .internal es }) r)
    else none

/-- One parent: the entry for `r`, the new page behind `l`, goes one after the index of the entry of `l`.
Returns the tree and, if the parent had to be split, its two pages.
Source: __bt_split -/
def parentStep (K : Kind α β) (t : Tree α β) (pg index l r : ℕ) :
    Option (Tree α β × Option (ℕ × ℕ)) :=
  let skip := index + 1
  match K.right t pg skip l r with
  | none => none
  | some e =>
    if K.layout.free t.psize (t.pages pg).body < K.layout.internalBytes e + indxSize then
      match splitPage K.layout t pg skip (K.layout.internalBytes e) with
      | none => none
      | some (t, v) =>
        -- if split added at index 0, fix the correct page
        let t := if v.skip ≠ 0 then changeEntry t v.page (v.skip - 1) (K.left t l)
          else changeEntry t v.l ((t.pages v.l).body.nextindex - 1) (K.left t l)
        match putEntry K.layout t v.page v.skip e with
        | none => none
        | some t =>
          if pg = pRoot then
            (newRoot K (K.done t r) v.l v.r).map fun t => (t, some (v.l, v.r))
          else some (K.done t r, some (v.l, v.r))
    else
      let t := changeEntry t pg (skip - 1) (K.left t l)
      (putEntry K.layout t pg skip e).map fun t => (K.done t r, none)

/-- Walk the parent page stack. It stops if the page inserted into didn't have to split.
Source: __bt_split -/
def parentLoop (K : Kind α β) : List (ℕ × ℕ) → ℕ → ℕ → Tree α β → Option (Tree α β)
  | [], _, _, t => some t
  | (pg, index) :: stack, l, r, t =>
    match parentStep K t pg index l r with
    | none => none
    | some (t, none) => some t
    | some (t, some (l, r)) => parentLoop K stack l r t

/-- Split the leaf page `sp` with the record `x` to insert at the index `skip`.
Source: __bt_split -/
def btSplit (K : Kind α β) (t : Tree α β) (stack : List (ℕ × ℕ)) (sp skip : ℕ) (x : α) :
    Option (Tree α β) :=
  match splitPage K.layout t sp skip (K.layout.leafBytes x) with
  | none => none
  | some (t, v) =>
    match putLeaf K.layout t v.page v.skip x with
    | none => none
    | some t =>
      if sp = pRoot then
        match newRoot K t v.l v.r with
        | none => none
        | some t => parentLoop K stack v.l v.r t
      else parentLoop K stack v.l v.r t

end Bsd386.Db.Btree
