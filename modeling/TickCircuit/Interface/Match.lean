import TickCircuit.Interface.Basic
import TickCircuit.Value.Basic
/-!
Relations of interfaces: the same shape, whether a sink admits what a source carries, and whether
an interface accepts a value. None of them looks at labels.
-/
namespace TickCircuit.Interface

mutual
def sameShape : Interface → Interface → Bool
  | .bit _, .bit _ | .any _, .any _ | .none _, .none _ => true
  | .rest _ a, .rest _ b => sameShape a b
  | .collection _ as, .collection _ bs => sameShapes as bs
  | _, _ => false
def sameShapes : List Interface → List Interface → Bool
  | [], [] => true
  | a :: as, b :: bs => sameShape a b && sameShapes as bs
  | _, _ => false
end

mutual
/-- `any` fits on either side and a `none` sink takes everything. A rest fits a collection whose
children all have one shape, namely that of the first. -/
def admits : Interface → Interface → Bool
  | .any _, _ | _, .any _ | .none _, _ | .bit _, .bit _ => true
  | .collection _ [], .rest .. | .rest .., .collection _ [] => true
  | .collection _ (c :: cs), .rest _ e => cs.all (sameShape · c) && admits c e
  | .rest _ e, .collection _ (c :: cs) => cs.all (sameShape · c) && admits e c
  | .collection _ as, .collection _ bs => admitsAll as bs
  | .rest _ a, .rest _ b => admits a b
  | _, _ => false
def admitsAll : List Interface → List Interface → Bool
  | [], [] => true
  | a :: as, b :: bs => admits a b && admitsAll as bs
  | _, _ => false
end

mutual
def admitsPart (sink : Interface) : Interface → Bool
  | .collection l cs => sink.admits (.collection l cs) || admitsPartOf sink cs
  | .rest l e => sink.admits (.rest l e) || admitsPart sink e
  | other => sink.admits other
def admitsPartOf (sink : Interface) : List Interface → Bool
  | [] => false
  | c :: cs => admitsPart sink c || admitsPartOf sink cs
end

mutual
def accepts : Interface → Value → Bool
  | .any _, _ | .bit _, .bit .. => true
  | .collection _ cs, .collection _ vs => acceptsAll cs vs
  | .rest _ e, .collection _ vs => vs.all (accepts e)
  | _, _ => false
def acceptsAll : List Interface → List Value → Bool
  | [], [] => true
  | c :: cs, v :: vs => accepts c v && acceptsAll cs vs
  | _, _ => false
end

end TickCircuit.Interface
