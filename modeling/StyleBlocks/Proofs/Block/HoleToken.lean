import StyleBlocks.Proofs.Block.AtomTokens
import StyleBlocks.Proofs.Sheet.TokenSeams

/-!
# Holes as tokens

The placeholder of a hole is a comment, so that style text reads around a hole as if it were not
there. For that the placeholder has to be a token of its own wherever a hole can stand. The tokens of
the text in front of it stay as they are unless the slash that the placeholder begins with goes on the
last of them. Within a comment up to the end of its line it does, as any character would. Elsewhere it
does in one case: behind a slash by itself. The two slashes begin a comment that takes in the
placeholder and all that is left of the line.

## Main results

* `Token.tokenizeFrom_append_create`: a placeholder is a token of its own behind other tokens.
* `Token.tokenizeFrom_slash_create`: behind a slash it is the beginning of a comment.
* `Token.tokenize_append_create`: it is a token of its own exactly if no slash stands in front of it.
-/

namespace StyleBlocks.Sheet.Token

open Placeholder (create)

/-- The token that the placeholder of a hole is at an offset. -/
def hole (i offset : Nat) : Token :=
  ⟨.comment, create i, offset⟩

/-- A line of text, up to its line feed. -/
def lineOf (t : Text) : Text :=
  t.takeWhile (· ≠ '\n')

section

variable {lines lines' : LineMap} {offset i : Nat} {p s t : Text} {ts front us : List Token}
  {k : Token}

/-- A placeholder has the shape of a comment. -/
theorem shape_create (i : Nat) : Shape .comment (create i) := by
  have hrun := Placeholder.commentRun_append (Placeholder.slash_notMem i) []
  have hcut : create i =
      '/' :: '*' :: (Placeholder.mark ++ ':' :: Text.ofNat i ++ ['*', '/']) := by
    simp [create]
  rw [hcut]
  exact .comment hrun

/-- A slash goes on comments up to the end of their line and on slashes, and on nothing else. -/
theorem stopsAt_slash (hline : k.kind ≠ .lineComment) (hslash : k.text ≠ ['/']) (t : Text) :
    k.StopsAt ('/' :: t) := by
  intro c hc
  obtain rfl : '/' = c := by simpa using hc
  unfold Ends
  split
  case h_1 => rfl
  case h_2 hk => exact absurd hk hline
  case h_3 => exact ⟨rfl, by decide, fun h => absurd h (by decide)⟩
  case h_4 => exact ⟨rfl, fun _ => by decide⟩
  case h_5 => exact ⟨fun h => absurd h hslash, fun _ => by decide⟩
  case h_6 => trivial

/-- **A placeholder is a token of its own behind other tokens**, and what follows it is cut as if it
stood by itself, unless the last of them is a slash or a comment up to the end of its line. -/
theorem tokenizeFrom_append_create (hp : tokenizeFrom lines offset p = .ok ts)
    (hline : ∀ k ∈ ts.getLast?, k.kind ≠ .lineComment) (hslash : ∀ k ∈ ts.getLast?, k.text ≠ ['/']) :
    tokenizeFrom lines' offset (p ++ create i ++ s) =
      (tokenizeFrom lines' (offset + Text.byteSize p + Text.byteSize (create i)) s).map
        (fun vs => ts ++ hole i (offset + Text.byteSize p) :: vs) := by
  have hstops : ∀ k ∈ ts.getLast?, k.StopsAt (create i ++ s) := fun k hk =>
    stopsAt_slash (hline k hk) (hslash k hk) _
  rw [List.append_assoc, tokenizeFrom_append hp hstops,
    tokenizeFrom_shape_append (shape_create i) fun _ _ => trivial, map_map]
  rfl

/-- **Behind a slash a placeholder begins a comment** that takes in all that is left of the line. -/
theorem tokenizeFrom_slash_create (hp : tokenizeFrom lines offset p = .ok (front ++ [k]))
    (hk : k.text = ['/']) :
    tokenizeFrom lines' offset (p ++ create i ++ s) =
      (tokenizeFrom lines' (k.start + Text.byteSize ('/' :: create i ++ lineOf s))
        (s.dropWhile (· ≠ '\n'))).map
        (fun vs => front ++ ⟨.lineComment, '/' :: create i ++ lineOf s, k.start⟩ :: vs) := by
  obtain ⟨v, rfl, hfront, hstops, hv⟩ := tokenizeFrom_eq_ok_append.1 hp
  obtain ⟨w, rfl, -, -, hstart, hw⟩ := tokenizeFrom_eq_ok_cons.1 hv
  obtain rfl : [] = w := texts_of_tokenizeFrom hw
  have hcut : texts front ++ (k.text ++ []) ++ create i ++ s =
      texts front ++ ('/' :: create i ++ lineOf s ++ s.dropWhile (· ≠ '\n')) := by
    simp [hk, lineOf, List.takeWhile_append_dropWhile]
  have hfront' : ∀ l ∈ front.getLast?,
      l.StopsAt ('/' :: create i ++ lineOf s ++ s.dropWhile (· ≠ '\n')) := by
    intro l hl
    have hslash := hstops l hl
    rw [hk] at hslash
    exact hslash
  obtain ⟨hall, hends⟩ := takeWhile_append_eq_left.1
    (congrArg (List.takeWhile (· ≠ '\n')) (List.takeWhile_append_dropWhile (l := s)))
  have hline : Shape .lineComment ('/' :: create i ++ lineOf s) := by
    refine .lineComment (t := (create i).tail ++ lineOf s) fun hn => ?_
    rcases List.mem_append.1 hn with hn | hn
    · exact Placeholder.notMem_create rfl (by decide) i (List.mem_of_mem_tail hn)
    · simpa using hall _ hn
  have hends : ∀ c ∈ (s.dropWhile (· ≠ '\n')).head?,
      Ends .lineComment ('/' :: create i ++ lineOf s) c := by
    simpa [Ends] using hends
  rw [hcut, tokenizeFrom_append hfront hfront', tokenizeFrom_shape_append hline hends, map_map,
    hstart]
  rfl

/-- **A placeholder is a token of its own exactly if no slash stands in front of it**, where a token
can start. Behind a slash it is part of a comment, with all that is left of the line. -/
theorem tokenize_append_create (hp : tokenize p = .ok ts)
    (hline : ∀ k ∈ ts.getLast?, k.kind ≠ .lineComment)
    (h : tokenize (p ++ create i ++ s) = .ok us) :
    ((∃ vs, us = ts ++ hole i (Text.byteSize p) :: vs ∧ texts vs = s) ↔
      ∀ k ∈ ts.getLast?, k.text ≠ ['/']) ∧
    ∀ front k, ts = front ++ [k] → k.text = ['/'] →
      ∃ vs, us = front ++ ⟨.lineComment, '/' :: create i ++ lineOf s, k.start⟩ :: vs ∧
        texts vs = s.dropWhile (· ≠ '\n') := by
  have hswallow : ∀ front k, ts = front ++ [k] → k.text = ['/'] →
      ∃ vs, us = front ++ ⟨.lineComment, '/' :: create i ++ lineOf s, k.start⟩ :: vs ∧
        texts vs = s.dropWhile (· ≠ '\n') := by
    rintro front k rfl hk
    rw [tokenize, tokenizeFrom_slash_create hp hk] at h
    obtain ⟨vs, hvs, rfl⟩ := map_eq_ok_iff.1 h
    exact ⟨vs, rfl, texts_of_tokenizeFrom hvs⟩
  refine ⟨⟨?_, fun hslash => ?_⟩, hswallow⟩
  · rintro ⟨vs, rfl, -⟩ k hk hslash
    obtain ⟨front, rfl⟩ := List.getLast?_eq_some_iff.1 hk
    obtain ⟨ws, hws, -⟩ := hswallow front k rfl hslash
    rw [List.append_assoc] at hws
    have hk : k = ⟨.lineComment, '/' :: create i ++ lineOf s, k.start⟩ :=
      (List.cons.inj (List.append_cancel_left hws)).1
    rw [hk] at hslash
    simp [create] at hslash
  · rw [tokenize, tokenizeFrom_append_create hp hline hslash] at h
    obtain ⟨vs, hvs, rfl⟩ := map_eq_ok_iff.1 h
    exact ⟨vs, by simp, texts_of_tokenizeFrom hvs⟩

/-- Behind a slash the placeholder is not a token: the line behind the slash is a comment, and the
next declaration is on its own. -/
theorem tokenize_append_create_slash :
    let us : List Token := [⟨.word, ['a'], 0⟩, ⟨.lineComment, "//*STYLE_EXPR:0*/;".toList, 1⟩,
      ⟨.space, ['\n'], 19⟩, ⟨.word, ['b'], 20⟩]
    tokenize "a/".toList = .ok [⟨.word, ['a'], 0⟩, ⟨.delimiter, ['/'], 1⟩] ∧
      tokenize ("a/".toList ++ create 0 ++ ";\nb".toList) = .ok us ∧
      ¬ ∃ vs, us = [⟨.word, ['a'], 0⟩, ⟨.delimiter, ['/'], 1⟩] ++ hole 0 2 :: vs ∧
        texts vs = ";\nb".toList := by
  intro us
  have hp : tokenize "a/".toList = .ok [⟨.word, ['a'], 0⟩, ⟨.delimiter, ['/'], 1⟩] := by
    decide +kernel
  have h : tokenize ("a/".toList ++ create 0 ++ ";\nb".toList) = .ok us := by decide +kernel
  refine ⟨hp, h, fun hexists => ?_⟩
  have hnot := (tokenize_append_create hp (by decide) h).1.1 hexists
  exact hnot ⟨.delimiter, ['/'], 1⟩ rfl rfl

end

end StyleBlocks.Sheet.Token
