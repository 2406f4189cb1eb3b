import ObjectRegistry.Shop

def main : IO Unit := IO.print ObjectRegistry.Shop.transcript
