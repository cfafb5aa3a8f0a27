import TickCircuit.Interface.Match
import TickCircuit.Interface.Text
import TickCircuit.Value.Text
/-!
The more precise of two interfaces, and the two ways in which types can disagree.
-/
namespace TickCircuit

inductive TypeFault where
  | irreconcilable (left right : Interface)
  | valueMismatch (value : Value) (interface : Interface)
deriving DecidableEq

def TypeFault.message : TypeFault → String
  | .irreconcilable a b => "cannot merge `" ++ a.text ++ "` with `" ++ b.text ++ "`"
  | .valueMismatch v i => "value `" ++ v.text ++ "` does not match `" ++ i.text ++ "`"

namespace Interface

mutual
/-- `any` yields to the other side, `none` keeps the left one; a rest takes the arity of a
collection. The left label wins where both sides have one. -/
def merge : Interface → Interface → Except TypeFault Interface
  | .any _, b => .ok b
  | a, .any _ | a, .none _ => .ok a
  | .none l, _ => .ok (.none l)
  | .bit l, .bit _ => .ok (.bit l)
  | .collection l as, .collection m bs =>
    if as.length = bs.length then .collection (l <|> m) <$> mergeAll as bs
    else .error (.irreconcilable (.collection l as) (.collection m bs))
  | .rest l e, .collection m cs => .collection (l <|> m) <$> cs.mapM (merge e)
  | .collection l cs, .rest m e => .collection (l <|> m) <$> mergeEach cs e
  | .rest l a, .rest m b => .rest (l <|> m) <$> merge a b
  | a, b => .error (.irreconcilable a b)
def mergeAll : List Interface → List Interface → Except TypeFault (List Interface)
  | a :: as, b :: bs => do
    let m ← merge a b
    let ms ← mergeAll as bs
    return m :: ms
  | _, _ => .ok []
def mergeEach : List Interface → Interface → Except TypeFault (List Interface)
  | [], _ => .ok []
  | c :: cs, e => do
    let m ← merge c e
    let ms ← mergeEach cs e
    return m :: ms
end

def check (i : Interface) (v : Value) : Except TypeFault Unit :=
  if i.accepts v then .ok () else .error (.valueMismatch v i)

theorem check_eq_ok_iff {i : Interface} {v : Value} : i.check v = .ok () ↔ i.accepts v := by
  unfold check
  split <;> simp_all

end Interface
end TickCircuit
