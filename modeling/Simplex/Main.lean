import Simplex.Sample
/-! Solves the sample with one bound and prints what comes of it. -/

def main : IO Unit := do
  IO.print (Simplex.Sample.report 1000 Simplex.Sample.oneBound)
